import GroupingPlanner.Column
import GroupingPlanner.Fault
import GroupingPlanner.Journal
/-!
# Sessions: taking ids and reporting

Passes need two things from the outside: column ids that nobody uses yet, and a journal to report
to.  Both live in a `Session`.  A computation in `PlanM` may fail, and whatever it took or wrote
before it failed stays taken and written.

Ids are numbered consecutively, so a pass that needs several of them can compute its result as a
plain function of the first one and take them together (`PlanM.takeIds`).
-/

namespace GroupingPlanner

/-- The next free id and the journal. -/
structure Session where
  nextId : Nat := 1
  journal : Journal := {}
deriving DecidableEq, Repr

/-- Computations that take ids, report, and may fail. -/
abbrev PlanM := ExceptT Fault (StateM Session)

namespace PlanM

/-- Takes `count` consecutive ids and returns the first one. -/
def takeIds (count : Nat) : PlanM Nat :=
  modifyGet fun s => (s.nextId, { s with nextId := s.nextId + count })

/-- Takes one id. -/
def freshId : PlanM ColumnId := do return ⟨← takeIds 1⟩

/-- Writes a record to the journal. -/
def report (r : Record) : PlanM Unit :=
  modify fun s => { s with journal := s.journal.write r }

/-- A result that was computed without the session. -/
def ofExcept {α : Type} (result : Except Fault α) : PlanM α := ExceptT.mk (pure result)

/-- Runs a computation in a session. -/
def runIn {α : Type} (x : PlanM α) (s : Session) : Except Fault α × Session := x.run.run s

/-! ## What the steps do to a session -/

@[simp] theorem runIn_pure {α : Type} (a : α) (s : Session) :
    runIn (pure a) s = (.ok a, s) := rfl

@[simp] theorem runIn_throw {α : Type} (f : Fault) (s : Session) :
    runIn (throw f : PlanM α) s = (.error f, s) := rfl

theorem runIn_bind {α β : Type} (x : PlanM α) (k : α → PlanM β) (s : Session) :
    runIn (x >>= k) s =
      match runIn x s with
      | (.ok a, s') => runIn (k a) s'
      | (.error f, s') => (.error f, s') := by
  simp only [runIn, ExceptT.run_bind, StateT.run_bind]
  generalize x.run.run s = outcome
  rcases outcome with ⟨_ | _, _⟩ <;> rfl

@[simp] theorem runIn_takeIds (count : Nat) (s : Session) :
    runIn (takeIds count) s = (.ok s.nextId, { s with nextId := s.nextId + count }) := rfl

@[simp] theorem runIn_report (r : Record) (s : Session) :
    runIn (report r) s = (.ok (), { s with journal := s.journal.write r }) := rfl

@[simp] theorem runIn_ofExcept {α : Type} (result : Except Fault α) (s : Session) :
    runIn (ofExcept result) s = (result, s) := rfl

end PlanM

end GroupingPlanner
