import Mathlib.Data.List.Forall2
import Mathlib.Tactic.Common

/-!
# Outcomes

Steps that may fail are run one after another, and the first failure is the outcome. A run over a
list succeeds exactly if every step does.
-/

namespace AdaptiveMesh

set_option autoImplicit false

namespace Outcome

variable {ε α β : Type}

theorem bind_ok_iff {x : Except ε α} {f : α → Except ε β} {b : β} :
    (x >>= f) = .ok b ↔ ∃ a, x = .ok a ∧ f a = .ok b := by
  cases x with
  | error e => simp [bind, Except.bind]
  | ok a => simp [bind, Except.bind]

theorem map_ok_iff {x : Except ε α} {f : α → β} {b : β} :
    (f <$> x) = .ok b ↔ ∃ a, x = .ok a ∧ f a = b := by
  cases x with
  | error e => simp [Functor.map, Except.map]
  | ok a => simp [Functor.map, Except.map]

theorem pure_ok_iff {a b : α} : (pure a : Except ε α) = .ok b ↔ a = b := by
  simp [pure, Except.pure]

theorem exists_ok_of_isOk {x : Except ε α} (computed : x.isOk = true) : ∃ a, x = .ok a := by
  cases x with
  | error e => cases computed
  | ok a => exact ⟨a, rfl⟩

theorem exists_ok_of_any {x : Except ε α} {p : α → Bool} (computed : x.toOption.any p = true) :
    ∃ a, x = .ok a ∧ p a = true := by
  cases x with
  | error e => cases computed
  | ok a => exact ⟨a, rfl, computed⟩

/-- Beyond a check, the condition that it refuses does not hold. -/
theorem check_ok_iff {refused : Prop} [Decidable refused] {e : ε} {skipped : α → Except ε β}
    {rest : Except ε β} {b : β} :
    (if refused then throw e >>= skipped else rest) = .ok b ↔ ¬refused ∧ rest = .ok b := by
  by_cases wrong : refused
  · simp [wrong, throw, throwThe, MonadExceptOf.throw, bind, Except.bind]
  · simp [wrong]

theorem mapM_ok_iff {f : α → Except ε β} {xs : List α} {ys : List β} :
    xs.mapM f = .ok ys ↔ List.Forall₂ (fun x y => f x = .ok y) xs ys := by
  induction xs generalizing ys with
  | nil =>
      rw [List.mapM_nil, pure_ok_iff, List.forall₂_nil_left_iff]
      exact eq_comm
  | cons x xs ih =>
      simp only [List.mapM_cons, bind_ok_iff, pure_ok_iff, ih, List.forall₂_cons_left_iff]
      constructor
      · rintro ⟨y, first, rest, others, rfl⟩
        exact ⟨y, rest, first, others, rfl⟩
      · rintro ⟨y, rest, first, others, rfl⟩
        exact ⟨y, first, rest, others, rfl⟩

theorem exists_mapM_ok {f : α → Except ε β} {xs : List α}
    (each : ∀ x ∈ xs, ∃ y, f x = .ok y) : ∃ ys, xs.mapM f = .ok ys := by
  induction xs with
  | nil => exact ⟨[], rfl⟩
  | cons x xs ih =>
      obtain ⟨y, first⟩ := each x List.mem_cons_self
      obtain ⟨ys, rest⟩ := ih fun other member => each other (List.mem_cons_of_mem x member)
      exact ⟨y :: ys, mapM_ok_iff.2 (.cons first (mapM_ok_iff.1 rest))⟩

theorem exists_of_mapM_error {f : α → Except ε β} {xs : List α} {e : ε}
    (run : xs.mapM f = .error e) : ∃ x ∈ xs, f x = .error e := by
  induction xs with
  | nil => cases run
  | cons x xs ih =>
      rw [List.mapM_cons] at run
      cases first : f x with
      | error early =>
          rw [first] at run
          cases run
          exact ⟨x, List.mem_cons_self, first⟩
      | ok y =>
          rw [first] at run
          cases rest : xs.mapM f with
          | error late =>
              rw [rest] at run
              cases run
              obtain ⟨other, member, failed⟩ := ih rest
              exact ⟨other, List.mem_cons_of_mem x member, failed⟩
          | ok ys =>
              rw [rest] at run
              cases run

theorem mapM_map_result {γ : Type} (f : β → γ) (make : α → Except ε β) (entries : List α) :
    (entries.mapM fun entry => f <$> make entry) = List.map f <$> entries.mapM make := by
  induction entries with
  | nil => rfl
  | cons entry rest ih =>
      rw [List.mapM_cons, List.mapM_cons, ih]
      cases make entry with
      | error refused => rfl
      | ok value =>
          cases rest.mapM make with
          | error refused => rfl
          | ok values => rfl

theorem foldlM_made {σ : Type} {step : σ → α → Except ε σ} {make : α → Except ε β}
    (put : σ → Nat → β → σ) {entries : List α} (start : Nat)
    (steps : ∀ index entry, entries[index]? = some entry → ∀ table,
      step table entry = put table (start + index) <$> make entry) (table : σ) :
    entries.foldlM step table = (fun made =>
      (made.zipIdx start).foldl (fun table (value, position) => put table position value) table) <$>
        entries.mapM make := by
  induction entries generalizing start table with
  | nil => rfl
  | cons entry rest ih =>
      have first := steps 0 entry rfl table
      have later := ih (start + 1) fun index other listed table => by
        rw [Nat.add_assoc, Nat.add_comm 1]
        exact steps (index + 1) other listed table
      rw [List.foldlM_cons, List.mapM_cons, first]
      cases make entry with
      | error refused => rfl
      | ok value =>
          refine (later (put table start value)).trans ?_
          cases rest.mapM make with
          | error refused => rfl
          | ok values => rfl

theorem allM_ok_true_iff {p : α → Except ε Bool} {xs : List α} :
    xs.allM p = .ok true ↔ ∀ x ∈ xs, p x = .ok true := by
  induction xs with
  | nil => simp [List.allM, pure, Except.pure]
  | cons x xs ih =>
      rw [List.allM, Outcome.bind_ok_iff, List.forall_mem_cons, ← ih]
      constructor
      · rintro ⟨answer, first, rest⟩
        cases answer with
        | true => exact ⟨first, rest⟩
        | false => cases rest
      · rintro ⟨first, rest⟩
        exact ⟨true, first, rest⟩

theorem exists_allM_ok {p : α → Except ε Bool} {xs : List α}
    (each : ∀ x ∈ xs, ∃ answer, p x = .ok answer) : ∃ answer, xs.allM p = .ok answer := by
  induction xs with
  | nil => exact ⟨true, rfl⟩
  | cons x xs ih =>
      obtain ⟨answer, first⟩ := each x List.mem_cons_self
      rw [List.allM, first]
      cases answer with
      | true => exact ih fun other member => each other (List.mem_cons_of_mem x member)
      | false => exact ⟨false, rfl⟩

theorem exists_allM_ok_iff {p : α → Except ε Bool} {holds : α → Prop} {xs : List α}
    (each : ∀ x ∈ xs, ∃ answer, p x = .ok answer ∧ (answer = true ↔ holds x)) :
    ∃ answer, xs.allM p = .ok answer ∧ (answer = true ↔ ∀ x ∈ xs, holds x) := by
  have answers (x : α) (member : x ∈ xs) : ∃ answer, p x = .ok answer := by
    obtain ⟨answer, run, _⟩ := each x member
    exact ⟨answer, run⟩
  obtain ⟨answer, run⟩ := exists_allM_ok answers
  refine ⟨answer, run, ?_⟩
  have accepted : answer = true ↔ ∀ x ∈ xs, p x = .ok true := by
    rw [← allM_ok_true_iff, run, Except.ok.injEq]
  rw [accepted]
  apply forall₂_congr
  intro x member
  obtain ⟨said, here, means⟩ := each x member
  rw [here, Except.ok.injEq]
  exact means

theorem exists_anyM_ok_iff {p : α → Except ε Bool} {holds : α → Prop} {xs : List α}
    (each : ∀ x ∈ xs, ∃ answer, p x = .ok answer ∧ (answer = true ↔ holds x)) :
    ∃ answer, xs.anyM p = .ok answer ∧ (answer = true ↔ ∃ x ∈ xs, holds x) := by
  induction xs with
  | nil => exact ⟨false, rfl, by simp⟩
  | cons x xs ih =>
      obtain ⟨answer, first, means⟩ := each x List.mem_cons_self
      simp only [List.anyM, first, List.mem_cons, exists_eq_or_imp]
      cases answer with
      | true => exact ⟨true, rfl, iff_of_true rfl (.inl (means.1 rfl))⟩
      | false =>
          obtain ⟨answer, rest, later⟩ := ih fun other member => each other (List.mem_cons_of_mem x member)
          refine ⟨answer, rest, later.trans (or_iff_right ?_).symm⟩
          intro here
          cases means.2 here

theorem allM_not (p : α → Except ε Bool) (xs : List α) :
    (xs.allM fun x => return !(← p x)) = return !(← xs.anyM p) := by
  induction xs with
  | nil => rfl
  | cons x xs ih =>
      rw [List.allM, List.anyM, ih]
      cases p x with
      | error e => rfl
      | ok answer => cases answer <;> rfl

theorem exists_left_of_mem {related : α → β → Prop} {xs : List α} {ys : List β}
    (paired : List.Forall₂ related xs ys) {y : β} (member : y ∈ ys) : ∃ x ∈ xs, related x y := by
  induction paired with
  | nil => cases member
  | cons first _ ih =>
      rcases List.mem_cons.1 member with rfl | later
      · exact ⟨_, List.mem_cons_self, first⟩
      · obtain ⟨x, inside, pair⟩ := ih later
        exact ⟨x, List.mem_cons_of_mem _ inside, pair⟩

theorem exists_right_of_mem {related : α → β → Prop} {xs : List α} {ys : List β}
    (paired : List.Forall₂ related xs ys) {x : α} (member : x ∈ xs) : ∃ y ∈ ys, related x y :=
  exists_left_of_mem paired.flip member

theorem getElem?_right {related : α → β → Prop} {xs : List α} {ys : List β}
    (paired : List.Forall₂ related xs ys) {index : Nat} {x : α} (listed : xs[index]? = some x) :
    ∃ y, ys[index]? = some y ∧ related x y := by
  induction paired generalizing index with
  | nil => cases listed
  | cons first _ ih =>
      cases index with
      | zero =>
          cases listed
          exact ⟨_, rfl, first⟩
      | succ index => exact ih listed

end Outcome

end AdaptiveMesh
