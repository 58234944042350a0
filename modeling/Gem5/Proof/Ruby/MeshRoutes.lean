import Gem5.Construction.Ruby.RoutingUnit

namespace Gem5.Garnet
open ToMathlib List
variable {mesh : Mesh} {x y destX destY routers : Nat} {inportDirn : PortDirection}

/-- The way through the columns and then through the rows, where one of both differences of a coordinate is zero. -/
def route (x y destX destY : Nat) : List PortDirection :=
  (replicate (destX - x) .East ++ replicate (x - destX) .West) ++
    (replicate (destY - y) .North ++ replicate (y - destY) .South)

/-- A packet did not arrive through the port of its next step. -/
structure Ahead (x y destX destY : Nat) (inportDirn : PortDirection) : Prop where
  east : x < destX → inportDirn = .Local ∨ inportDirn = .West
  west : destX < x → inportDirn = .Local ∨ inportDirn = .East
  north : x = destX → y < destY → inportDirn ≠ .North
  south : x = destX → destY < y → inportDirn ≠ .South

namespace Mesh

/-- The router of a column and a row. -/
def router (mesh : Mesh) (x y : Nat) : Nat := mesh.numCols * y + x

theorem router_mod (inside : x < mesh.numCols) : mesh.router x y % mesh.numCols = x := by
  rw [router, Nat.mul_add_mod, Nat.mod_eq_of_lt inside]

theorem router_div (inside : x < mesh.numCols) : mesh.router x y / mesh.numCols = y := by
  rw [router, Nat.mul_add_div (by omega), Nat.div_eq_of_lt inside, Nat.add_zero]

section
variable (inX : x < mesh.numCols) (inY : y < mesh.numRows) (toX : destX < mesh.numCols) (toY : destY < mesh.numRows)
include inX inY toX toY

/-- A router sends a packet one step along its way. -/
theorem step_ahead (away : ¬(x = destX ∧ y = destY)) (ahead : Ahead x y destX destY inportDirn) :
    ∃ outportDirn arrival nextX nextY,
      mesh.outportComputeXY (mesh.router x y) (mesh.router destX destY) inportDirn = .ok outportDirn ∧
      mesh.neighbour (mesh.router x y) outportDirn = some (mesh.router nextX nextY, arrival) ∧
      nextX < mesh.numCols ∧ nextY < mesh.numRows ∧ Ahead nextX nextY destX destY arrival ∧
      route x y destX destY = outportDirn :: route nextX nextY destX destY := by
  unfold outportComputeXY
  rw [router_mod inX, router_div inX, router_mod toX, router_div toX, assert_of (by omega), ok_bind]
  dsimp only
  rw [assert_of (by omega), ok_bind]
  rcases Nat.lt_trichotomy x destX with east | rfl | west
  · rw [if_pos (by omega), if_pos (by omega), assert_of (ahead.east east), ok_bind]
    refine ⟨.East, .West, x + 1, y, rfl, ?_, by omega, inY, ⟨by simp, by omega, by simp, by simp⟩, ?_⟩
    · rw [neighbour, router_mod inX, if_pos (by omega)]
      rfl
    · rw [route, show destX - x = destX - (x + 1) + 1 by omega, show x - destX = x + 1 - destX by omega]
      rfl
  · rw [if_neg (by omega), if_pos (by omega)]
    rcases Nat.lt_trichotomy y destY with north | rfl | south
    · rw [if_pos (by omega), assert_of (ahead.north rfl north), ok_bind]
      refine ⟨.North, .South, x, y + 1, rfl, ?_, inX, by omega, ⟨by simp, by simp, by simp, by omega⟩, ?_⟩
      · rw [neighbour, router_div inX, if_pos (by omega), router, Nat.add_right_comm]
        rfl
      · rw [route, Nat.sub_self, show destY - y = destY - (y + 1) + 1 by omega,
          show y - destY = y + 1 - destY by omega, route, Nat.sub_self]
        rfl
    · exact absurd ⟨rfl, rfl⟩ away
    · obtain ⟨nextY, rfl⟩ := Nat.exists_eq_succ_of_ne_zero (Nat.ne_zero_of_lt south)
      have closer := Nat.le_of_lt_succ south
      rw [if_neg (by omega), assert_of (ahead.south rfl south), ok_bind]
      refine ⟨.South, .North, x, nextY, rfl, ?_, inX, by omega, ⟨by simp, by simp, by omega, by simp⟩, ?_⟩
      · rw [neighbour, router_div inX, if_pos (by omega), router, Nat.mul_succ, Nat.add_right_comm, Nat.add_sub_cancel]
        rfl
      · rw [route, Nat.succ_sub closer, Nat.sub_eq_zero_of_le (Nat.le_of_lt south), route,
          Nat.sub_eq_zero_of_le closer, Nat.sub_self]
        rfl
  · obtain ⟨nextX, rfl⟩ := Nat.exists_eq_succ_of_ne_zero (Nat.ne_zero_of_lt west)
    have closer := Nat.le_of_lt_succ west
    rw [if_pos (by omega), if_neg (by omega), assert_of (ahead.west west), ok_bind]
    refine ⟨.West, .East, nextX, y, rfl, ?_, by omega, inY, ⟨by omega, by simp, by simp, by simp⟩, ?_⟩
    · rw [neighbour, router_mod inX, if_pos (by omega)]
      rfl
    · rw [route, Nat.succ_sub closer, Nat.sub_eq_zero_of_le (Nat.le_of_lt west), route, Nat.sub_eq_zero_of_le closer]
      rfl

theorem travel_ahead (ahead : Ahead x y destX destY inportDirn) (enough : (route x y destX destY).length < routers) :
    mesh.travel (mesh.router destX destY) routers (mesh.router x y) inportDirn = .ok (route x y destX destY) := by
  induction routers generalizing x y inportDirn with
  | zero => exact absurd enough (Nat.not_lt_zero _)
  | succ routers ih =>
    rw [travel]
    by_cases arrived : x = destX ∧ y = destY
    · obtain ⟨rfl, rfl⟩ := arrived
      simp [route]
    have apart : mesh.router destX destY ≠ mesh.router x y := by
      intro same
      have column := congrArg (· % mesh.numCols) same
      have row := congrArg (· / mesh.numCols) same
      simp only [router_mod, router_div, inX, toX] at column row
      exact arrived ⟨column.symm, row.symm⟩
    obtain ⟨outportDirn, arrival, nextX, nextY, computes, leads, nextInX, nextInY, next, way⟩ :=
      step_ahead inX inY toX toY arrived ahead
    rw [way, length_cons] at enough
    rw [if_neg apart, computes, ok_bind, leads]
    dsimp only
    rw [ih nextInX nextInY next (by omega), ok_bind, way]

/-- Every packet from a local port goes through the columns and then through the rows without a detour, and it passes
every check of the routers. -/
theorem travel_shortest : (route x y destX destY).length = (destX - x : Int).natAbs + (destY - y : Int).natAbs ∧
    ∀ routers, (route x y destX destY).length < routers →
      mesh.travel (mesh.router destX destY) routers (mesh.router x y) .Local = .ok (route x y destX destY) := by
  constructor
  · simp only [route, length_append, length_replicate]
    omega
  · exact fun routers => travel_ahead inX inY toX toY ⟨by simp, by simp, by simp, by simp⟩

end

def sampleMesh : Mesh := ⟨2, 3⟩

/-- A packet goes through two columns and one row. -/
theorem travel_shortest_corner : sampleMesh.travel 5 4 0 .Local = .ok [.East, .East, .North] := by
  have source : 0 < sampleMesh.numCols ∧ 0 < sampleMesh.numRows := by decide
  have target : 2 < sampleMesh.numCols ∧ 1 < sampleMesh.numRows := by decide
  exact (travel_shortest source.1 source.2 target.1 target.2).2 4 (by decide)

/-- A packet that leaves through a channel may wait for another channel at the next router. -/
def WaitsFor (mesh : Mesh) : Nat × PortDirection → Nat × PortDirection → Prop
  | (id, outportDirn), (nextId, nextDirn) => ∃ arrival destId, mesh.neighbour id outportDirn = some (nextId, arrival) ∧
    mesh.outportComputeXY nextId destId arrival = .ok nextDirn

/-- Channels between columns come before those between rows, and each direction is ordered. -/
def rank (mesh : Mesh) : Nat × PortDirection → Nat ×ₗ Int
  | (_, .Local) => toLex (0, 0)
  | (id, .East) => toLex (0, (id % mesh.numCols : Nat))
  | (id, .West) => toLex (0, -(id % mesh.numCols : Nat))
  | (id, .North) => toLex (1, (id / mesh.numCols : Nat))
  | (id, .South) => toLex (1, -(id / mesh.numCols : Nat))

theorem WaitsFor.rank_lt {held next : Nat × PortDirection} (waits : mesh.WaitsFor held next) :
    mesh.rank held < mesh.rank next := by
  obtain ⟨id, outportDirn⟩ := held
  obtain ⟨nextId, nextDirn⟩ := next
  obtain ⟨arrival, destId, leads, computed⟩ := waits
  obtain ⟨⟨_, positive⟩, computed⟩ := assert_bind_eq_ok.mp computed
  replace computed := (assert_bind_eq_ok.mp computed).2
  cases outportDirn
  case Local => cases leads
  all_goals
    obtain ⟨inside, there⟩ := Option.ite_none_right_eq_some.mp leads
    obtain ⟨rfl, rfl⟩ := Prod.mk.inj (Option.some.inj there)
  case' East => have moved := (Nat.mod_add_mod ..).symm.trans (Nat.mod_eq_of_lt inside)
  case' West =>
    have moved := @router_mod mesh (id % mesh.numCols - 1) (id / mesh.numCols)
      (Nat.sub_lt_of_lt (Nat.mod_lt id positive))
    rw [router, ← Nat.add_sub_assoc (k := 1) inside, Nat.div_add_mod] at moved
  case' North => have moved := Nat.add_div_right id positive
  case' South => have moved := Nat.div_eq_sub_div positive (Nat.div_pos_iff.mp inside).2
  -- The checks of the next router refuse the other turns.
  all_goals
    split_ifs at computed <;> simp only [assert_bind_eq_ok, reduceCtorEq, or_self, or_true, false_and, true_and, ne_eq,
      not_true_eq_false, not_false_eq_true, Except.ok.injEq] at computed
    all_goals
      subst computed
      refine Prod.Lex.toLex_lt_toLex.mpr ?_
      first | exact .inl Nat.zero_lt_one | exact .inr ⟨rfl, by dsimp only; omega⟩

/-- No packets wait for each other in a cycle of channels. -/
theorem xy_deadlock_free (channel : Nat × PortDirection) : ¬ Relation.TransGen mesh.WaitsFor channel channel := by
  intro cycle
  have rises := cycle.lift mesh.rank fun _ _ => WaitsFor.rank_lt
  rw [Relation.transGen_eq_self] at rises
  exact lt_irrefl _ rises

end Mesh
end Gem5.Garnet
