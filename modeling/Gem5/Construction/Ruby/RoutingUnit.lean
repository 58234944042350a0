import Gem5.Construction.Base.Fault

namespace Gem5.Garnet
open ToMathlib

inductive PortDirection where
  | Local | North | East | South | West
deriving DecidableEq, Repr

/-- The routers of a mesh are numbered row by row. -/
structure Mesh where
  numRows : Nat
  numCols : Nat
deriving DecidableEq, Repr

namespace Mesh
variable (mesh : Mesh)

def outportComputeXY (myId destId : Nat) (inportDirn : PortDirection) : Except Fault PortDirection := do
  assert (0 < mesh.numRows ∧ 0 < mesh.numCols) "num_rows > 0 && num_cols > 0"
  let myX : Int := (myId % mesh.numCols : Nat)
  let myY : Int := (myId / mesh.numCols : Nat)
  let destX : Int := (destId % mesh.numCols : Nat)
  let destY : Int := (destId / mesh.numCols : Nat)
  let xHops := (destX - myX).natAbs
  let yHops := (destY - myY).natAbs
  assert (¬(xHops = 0 ∧ yHops = 0)) "!(x_hops == 0 && y_hops == 0)"
  if 0 < xHops then
    if myX ≤ destX then do
      assert (inportDirn = .Local ∨ inportDirn = .West) "inport_dirn == \"Local\" || inport_dirn == \"West\""
      .ok .East
    else do
      assert (inportDirn = .Local ∨ inportDirn = .East) "inport_dirn == \"Local\" || inport_dirn == \"East\""
      .ok .West
  else if 0 < yHops then
    if myY ≤ destY then do
      assert (inportDirn ≠ .North) "inport_dirn != \"North\""
      .ok .North
    else do
      assert (inportDirn ≠ .South) "inport_dirn != \"South\""
      .ok .South
  else .error (.panic "x_hops == y_hops == 0")

/-- The router behind a port and the port where a packet arrives there, unless the mesh ends. -/
def neighbour (id : Nat) : PortDirection → Option (Nat × PortDirection)
  | .Local => none
  | .East => if id % mesh.numCols + 1 < mesh.numCols then some (id + 1, .West) else none
  | .West => if 0 < id % mesh.numCols then some (id - 1, .East) else none
  | .North => if id / mesh.numCols + 1 < mesh.numRows then some (id + mesh.numCols, .South) else none
  | .South => if 0 < id / mesh.numCols then some (id - mesh.numCols, .North) else none

/-- This function follows a packet to its destination through at most a number of routers and lists its ports. -/
def travel (destId : Nat) : Nat → Nat → PortDirection → Except Fault (List PortDirection)
  | 0, _, _ => .error .endlessLoop
  | routers + 1, myId, inportDirn =>
    if destId = myId then .ok []
    else do
      let outportDirn ← mesh.outportComputeXY myId destId inportDirn
      match mesh.neighbour myId outportDirn with
      | none => .error .outOfBounds
      | some (nextId, arrival) => do .ok (outportDirn :: (← travel destId routers nextId arrival))

end Mesh

end Gem5.Garnet
