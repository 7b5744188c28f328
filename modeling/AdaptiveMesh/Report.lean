import AdaptiveMesh.Mesh.Adapt
import AdaptiveMesh.RunConfig
import AdaptiveMesh.Toml.Document

/-!
# Reports

A report shows how the blocks of a mesh are shared out to workers, one line per worker, and on
request the faces and neighbours of every block of one worker.
-/

namespace AdaptiveMesh

set_option autoImplicit false

inductive FileFault where
  | notFound
  | other (text : String)
deriving DecidableEq, Repr

def FileFault.message : FileFault → String
  | notFound => "No such file or directory (os error 2)"
  | other text => text

inductive RunError where
  | unreadable (path : String) (fault : FileFault)
  | unparsable (path cause : String)
  | rankOutOfRange (rank workers : Nat)
  | noBlockToRefine (loc : Location)
  | noBlockToWeigh (loc : Location)
  | mesh (error : MeshError)
deriving Repr

def RunError.chain : RunError → List String
  | unreadable path fault => ["failed to read " ++ path, fault.message]
  | unparsable path cause => ["failed to parse " ++ path, cause]
  | rankOutOfRange rank workers => [s!"rank {rank} is out of range for {workers} workers"]
  | noBlockToRefine loc => [s!"no block at {loc.describe} to refine"]
  | noBlockToWeigh loc => [s!"no block at {loc.describe} to assign a cost to"]
  | mesh error => error.message :: error.cause?.toList

namespace RunConfig

def lift {α : Type} : Except MeshError α → Except RunError α
  | .ok value => .ok value
  | .error error => .error (.mesh error)

def gidAt (mesh : Mesh) (loc : Location) (missing : RunError) : Except RunError Nat :=
  match (mesh.tree.findLeaf? loc).bind PlacedNode.gid? with
  | some gid => .ok gid
  | none => .error missing

def refineAt (mesh : Mesh) (loc : Location) : Except RunError Mesh := do
  let gid ← gidAt mesh loc (.noBlockToRefine loc)
  lift (mesh.refine ((Array.replicate mesh.numBlocks false).setIfInBounds gid true))

def weighAt (mesh : Mesh) (block : BlockCost) : Except RunError Mesh := do
  let gid ← gidAt mesh block.loc (.noBlockToWeigh block.loc)
  lift (mesh.setCost gid block.cost)

/-- Builds the mesh of a run: refines the listed blocks one after another, then sets the listed
costs and, if there are any, shares the blocks out again. -/
def build (config : RunConfig) : Except RunError Mesh := do
  if config.workers ≤ config.rank then throw (.rankOutOfRange config.rank config.workers)
  let uniform ← lift (Mesh.create config.mesh config.workers config.rank)
  let refined ← config.refine.foldlM refineAt uniform
  if config.costs.isEmpty then return refined
  lift (← config.costs.foldlM weighAt refined).rebalance

end RunConfig

namespace Report

def right (width : Nat) (text : String) : String :=
  String.ofList (List.replicate (width - text.length) ' ') ++ text

def left (width : Nat) (text : String) : String :=
  text ++ String.ofList (List.replicate (width - text.length) ' ')

def amount (x : Float) : String := Decimal.fixed 3 x

def headline (mesh : Mesh) : String :=
  s!"{mesh.numBlocks} blocks over {mesh.numWorkers} workers, max level {mesh.tree.maxLevel}, " ++
    s!"imbalance {amount mesh.decomposition.imbalance}"

def workerLine (rank : Nat) (blocks : Span) (cost : Float) : String :=
  s!"  rank {right 4 (toString rank)}: blocks {right 6 (toString blocks.start)}.." ++
    s!"{left 6 (toString blocks.stop)} cost {amount cost}"

def shares (mesh : Mesh) : List String :=
  let d := mesh.decomposition
  headline mesh :: (d.ranges.toList.zip d.costs.toList).zipIdx.map fun ((blocks, cost), rank) =>
    workerLine rank blocks cost

def faceLine (face : Face) (flag : BoundaryFlag) : String :=
  let side := if face.outer then "outer_x" else "inner_x"
  s!"  face {side}{face.axis.val + 1}: {flag.title}"

def neighborText (entry : NeighborEntry) : String :=
  s!"(gid {entry.gid}, level {entry.level}, rank {entry.rank}, destn {entry.destn})"

def directionText (slot : Nat) : String :=
  match Slot.region? slot with
  | some region => s!"Some({region.describe})"
  | none => "None"

def slotLine? (slot : Nat) (entries : List NeighborEntry) : Option String :=
  let present := entries.filter NeighborEntry.isPresent
  if present.isEmpty then none
  else
    let neighbors := String.intercalate " " (present.map neighborText)
    some s!"  slot {right 2 (toString slot)} {directionText slot}: {neighbors}"

def blockLines (mesh : Mesh) (position : Nat) : List String :=
  let topology := mesh.topology
  match topology.gid? position, topology.boundary? position with
  | some gid, some flags =>
      let loc := (mesh.tree.location? gid).getD .root
      let slots := (List.range topology.numSlots).filterMap fun slot =>
        slotLine? slot ((topology.slot? position slot).getD #[]).toList
      s!"block {gid} level {loc.level} lx {loc.describeCoordinates}" ::
        Face.all.map (fun face => faceLine face (flags face)) ++ slots
  | _, _ => []

def tables (mesh : Mesh) : List String :=
  s!"Topology of rank {mesh.rank}" ::
    (List.range mesh.topology.numBlocks).flatMap (blockLines mesh)

/-- The report on a run. `rank?` replaces the worker of the configuration, and `withTables` asks for
its tables. -/
def ofRun (config : RunConfig) (rank? : Option Nat) (withTables : Bool) :
    Except RunError (List String) := do
  let mesh ← { config with rank := rank?.getD config.rank }.build
  return shares mesh ++ if withTables then tables mesh else []

def ofDocument (path source : String) (rank? : Option Nat) (withTables : Bool) :
    Except RunError (List String) := do
  let value ← (Toml.document source).mapError (RunError.unparsable path)
  let config ← (Stored.runConfig .toml value).mapError fun error => .unparsable path error.message
  ofRun config rank? withTables

end Report

end AdaptiveMesh
