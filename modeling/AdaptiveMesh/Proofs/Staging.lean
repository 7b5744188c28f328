import AdaptiveMesh.StagedArray
import Mathlib.Data.List.DropRight
import Mathlib.Tactic.Common

/-!
# Staging

What readers see of a staged array follows from the calls made on it. The host copy follows every
call, the device copy follows the calls up to the latest publication, and reading is refused from the
first call that stages the array until the next publication. Publication skips an array on which
nothing is pending: its copies agree already, since calls that stage nothing change nothing.
-/

namespace AdaptiveMesh

set_option autoImplicit false

namespace StagedArray

variable {α : Type}

/-- A call on a staged array. A write may aim at a position out of range. -/
inductive Call (α : Type) where
  | write (index : Nat) (value : α)
  | resize (length : Nat) (value : α)
  | publish
  | read

namespace Call

def stages : Call α → Bool
  | write _ _ => true
  | resize _ _ => true
  | publish => false
  | read => false

def publishes : Call α → Bool
  | write _ _ => false
  | resize _ _ => false
  | publish => true
  | read => false

def change (contents : Array α) : Call α → Array α
  | write index value => contents.setIfInBounds index value
  | resize length value => Array.replicate length value
  | publish => contents
  | read => contents

theorem change_of_not_stages {call : Call α} (idle : call.stages = false) (contents : Array α) :
    call.change contents = contents := by
  cases call with
  | write index value => cases idle
  | resize length value => cases idle
  | publish => rfl
  | read => rfl

theorem not_publishes_of_stages {call : Call α} (staged : call.stages = true) :
    call.publishes = false := by
  cases call with
  | write index value => rfl
  | resize length value => rfl
  | publish => cases staged
  | read => cases staged

end Call

def after (array : StagedArray α) : Call α → StagedArray α
  | .write index value => (array.write index value).1
  | .resize length value => array.resize length value
  | .publish => array.publish
  | .read => array

def run (array : StagedArray α) (calls : List (Call α)) : StagedArray α := calls.foldl after array

def contentsAfter (start : Array α) (calls : List (Call α)) : Array α :=
  calls.foldl Call.change start

/-- The calls up to and including the latest publication. -/
def published (calls : List (Call α)) : List (Call α) :=
  calls.rdropWhile fun call => !call.publishes

/-- The calls since the latest publication, or all calls if there has been none. -/
def recent (calls : List (Call α)) : List (Call α) :=
  calls.rtakeWhile fun call => !call.publishes

section

variable (start : Array α) (calls : List (Call α)) (call : Call α)

theorem contentsAfter_concat :
    contentsAfter start (calls ++ [call]) = call.change (contentsAfter start calls) := by
  rw [contentsAfter, List.foldl_append]
  rfl

theorem published_append_recent : published calls ++ recent calls = calls :=
  List.rdropWhile_append_rtakeWhile

/-- Contents that have not been staged since are the published ones. -/
theorem contentsAfter_published (idle : ∀ call ∈ recent calls, call.stages = false) :
    contentsAfter start (published calls) = contentsAfter start calls := by
  have still (later : List (Call α)) (contents : Array α)
      (idle : ∀ call ∈ later, call.stages = false) :
      later.foldl Call.change contents = contents := by
    induction later with
    | nil => rfl
    | cons first rest ih =>
        rw [List.foldl_cons, Call.change_of_not_stages (idle first List.mem_cons_self)]
        apply ih
        intro call member
        exact idle call (List.mem_cons_of_mem first member)
  have whole := congrArg (contentsAfter start) (published_append_recent calls)
  rw [contentsAfter, List.foldl_append, still (recent calls) _ idle] at whole
  exact whole

theorem published_concat (silent : call.publishes = false) :
    published (calls ++ [call]) = published calls := by
  apply List.rdropWhile_concat_pos
  rw [silent]
  rfl

theorem recent_concat (silent : call.publishes = false) :
    recent (calls ++ [call]) = recent calls ++ [call] := by
  apply List.rtakeWhile_concat_pos
  rw [silent]
  rfl

theorem published_publish : published (calls ++ [.publish]) = calls ++ [.publish] := by
  apply List.rdropWhile_concat_neg
  exact Bool.false_ne_true

theorem recent_publish : recent (calls ++ [.publish]) = [] := by
  apply List.rtakeWhile_concat_neg
  exact Bool.false_ne_true

end

/-- What an array shows of the calls made on it. -/
structure Tracks (array : StagedArray α) (start : Array α) (calls : List (Call α)) : Prop where
  host : array.host = contentsAfter start calls
  device : array.device = contentsAfter start (published calls)
  pending_iff : array.pending = true ↔ ∃ call ∈ recent calls, call.stages = true

theorem tracks_filled (length : Nat) (value : α) :
    (filled length value).Tracks (Array.replicate length value) [] where
  host := rfl
  device := rfl
  pending_iff := by simp [filled, recent]

variable {array : StagedArray α} {start : Array α} {calls : List (Call α)} {call : Call α}

theorem Tracks.idle (tracks : array.Tracks start calls) (settled : array.pending = false) :
    ∀ call ∈ recent calls, call.stages = false := by
  intro call member
  by_contra staged
  have pending := tracks.pending_iff.2 ⟨call, member, by simpa using staged⟩
  rw [settled] at pending
  cases pending

theorem Tracks.device_eq_host (tracks : array.Tracks start calls)
    (settled : array.pending = false) : array.device = array.host := by
  rw [tracks.device, tracks.host]
  exact contentsAfter_published start calls (tracks.idle settled)

theorem host_after (array : StagedArray α) (call : Call α) :
    (array.after call).host = call.change array.host := by
  cases call with
  | write index value => rfl
  | resize length value => rfl
  | publish =>
      rw [after, publish]
      split <;> rfl
  | read => rfl

theorem device_after (silent : call.publishes = false) :
    (array.after call).device = array.device := by
  cases call with
  | write index value => rfl
  | resize length value => rfl
  | publish => cases silent
  | read => rfl

theorem pending_after (silent : call.publishes = false) :
    (array.after call).pending = true ↔ array.pending = true ∨ call.stages = true := by
  cases call with
  | write index value => simp [after, write, stage, Call.stages]
  | resize length value => simp [after, resize, stage, Call.stages]
  | publish => cases silent
  | read => simp [after, Call.stages]

theorem read_ok_iff : (∃ values, array.read = .ok values) ↔ array.pending = false := by
  rw [read]
  cases array.pending <;> simp

theorem publish_of_settled (settled : array.isPublished = true) : array.publish = array := by
  rw [isPublished, Bool.not_eq_true'] at settled
  rw [publish, settled]
  rfl

theorem Tracks.publish (tracks : array.Tracks start calls) :
    array.publish.Tracks start (calls ++ [.publish]) := by
  have host : array.publish.host = contentsAfter start (calls ++ [.publish]) := by
    rw [contentsAfter_concat, ← tracks.host]
    exact host_after array .publish
  have copied : array.publish.device = array.publish.host := by
    cases pending : array.pending with
    | true => simp [StagedArray.publish, pending]
    | false => simpa [StagedArray.publish, pending] using tracks.device_eq_host pending
  constructor
  · exact host
  · rw [published_publish, copied, host]
  · rw [recent_publish, StagedArray.publish]
    split <;> simp_all

theorem Tracks.after (tracks : array.Tracks start calls) (call : Call α) :
    (array.after call).Tracks start (calls ++ [call]) := by
  cases publishes : call.publishes with
  | true =>
      cases call with
      | publish => exact tracks.publish
      | write index value => cases publishes
      | resize length value => cases publishes
      | read => cases publishes
  | false =>
      constructor
      · rw [host_after, contentsAfter_concat, tracks.host]
      · rw [device_after publishes, published_concat calls call publishes, tracks.device]
      · rw [pending_after publishes, recent_concat calls call publishes, tracks.pending_iff]
        simp only [List.mem_append, List.mem_singleton, or_and_right, exists_or, exists_eq_left]

theorem tracks_run (length : Nat) (value : α) (calls : List (Call α)) :
    ((filled length value).run calls).Tracks (Array.replicate length value) calls := by
  induction calls using List.reverseRecOn with
  | nil => exact tracks_filled length value
  | append_singleton calls call ih =>
      rw [run, List.foldl_append]
      exact ih.after call

/-- Whatever calls have been made, the device copy holds the contents as they were at the latest
publication. Readers get them if nothing has been staged since, when they are the contents of the host
copy too, and are refused otherwise. -/
theorem readers_see_publications (length : Nat) (value : α) (calls : List (Call α)) :
    let array := (filled length value).run calls
    array.host = contentsAfter (Array.replicate length value) calls ∧
    array.device = ((filled length value).run (published calls)).host ∧
    (∀ call : Call α, call.stages = true → (array.after call).device = array.device) ∧
    ((∃ values, array.read = .ok values) ↔ ∀ call ∈ recent calls, call.stages = false) ∧
    (∀ values, array.read = .ok values → values = array.host) ∧
    (array.isPublished = true → array.publish = array) := by
  intro array
  have tracks : array.Tracks (Array.replicate length value) calls := tracks_run length value calls
  have before := tracks_run length value (published calls)
  refine ⟨tracks.host, ?_, ?_, ?_, ?_, ?_⟩
  · rw [tracks.device, before.host]
  · intro call staged
    apply device_after
    exact Call.not_publishes_of_stages staged
  · rw [read_ok_iff]
    constructor
    · exact tracks.idle
    · intro idle
      by_contra pending
      obtain ⟨call, member, staged⟩ := tracks.pending_iff.1 (by simpa using pending)
      rw [idle call member] at staged
      cases staged
  · intro values shown
    have settled := read_ok_iff.1 ⟨values, shown⟩
    rw [← tracks.device_eq_host settled]
    simpa [read, settled] using shown.symm
  · intro settled
    exact publish_of_settled settled

/-- A write beyond the end stages the array all the same. -/
theorem readers_see_publications_beyond_end :
    let array := (filled 3 0).run [.write 1 5, .publish, .write 9 1]
    array.device = #[0, 5, 0] ∧ (¬∃ values, array.read = .ok values) ∧
      (array.after (.resize 2 7)).device = #[0, 5, 0] ∧
      (array.run [.publish]).read = .ok #[0, 5, 0] := by
  intro array
  obtain ⟨_, device, staged, readable_iff, _⟩ :=
    readers_see_publications 3 0 [.write 1 5, .publish, .write 9 1]
  have shown : array.device = #[0, 5, 0] := device.trans rfl
  refine ⟨shown, ?_, ?_, rfl⟩
  · intro readable
    have idle := readable_iff.1 readable
    have late : Call.write 9 1 ∈ recent [Call.write 1 5, .publish, .write 9 1] := by
      exact List.mem_singleton.2 rfl
    cases idle _ late
  · exact (staged (.resize 2 7) rfl).trans shown

end StagedArray

end AdaptiveMesh
