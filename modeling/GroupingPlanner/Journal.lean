/-!
# The journal: records of what the passes did

Passes report what they do as records with a level of severity.  The journal keeps the records
that are at least as severe as its threshold and forgets the others.

* `Level`, `Level.admits`: severities, and which records a threshold lets through.
* `Record.text`, `Record.lines`: a record as text, and the lines of that.
* `Journal.write`: keeps a record or forgets it.
-/

namespace GroupingPlanner

/-- How severe a record is. -/
inductive Level where
  | critical
  | error
  | warning
  | info
  | debug
  | trace
deriving DecidableEq, Repr

namespace Level

/-- The rank of a level, the most severe first. -/
def rank : Level → Nat
  | critical => 0
  | error => 1
  | warning => 2
  | info => 3
  | debug => 4
  | trace => 5

/-- Whether a threshold lets records of a level through. -/
def admits (threshold level : Level) : Bool := level.rank ≤ threshold.rank

/-- The full name of a level. -/
def name : Level → String
  | critical => "CRITICAL"
  | error => "ERROR"
  | warning => "WARNING"
  | info => "INFO"
  | debug => "DEBUG"
  | trace => "TRACE"

/-- The four letters that open a record of the journal. -/
def abbreviation : Level → String
  | critical => "CRIT"
  | error => "ERRO"
  | warning => "WARN"
  | info => "INFO"
  | debug => "DEBG"
  | trace => "TRCE"

end Level

/-- One report: a message and named values. -/
structure Record where
  level : Level
  message : String
  fields : List (String × String) := []
deriving DecidableEq, Repr

namespace Record

/-- A record as text: level, message, and the fields from the last to the first. -/
def text (r : Record) : String :=
  r.fields.reverse.foldl (fun text field => text ++ ", " ++ field.1 ++ ": " ++ field.2)
    (r.level.abbreviation ++ " " ++ r.message)

/-- The lines of a record: one, unless what it reports has line feeds in it.  A carriage return
just before the end of a line belongs to the end. -/
def lines (r : Record) : List String :=
  (r.text.splitOn "\n").map fun line => (line.dropSuffix "\r").toString

end Record

/-- The records kept so far, oldest first, and the least severe level that is kept. -/
structure Journal where
  threshold : Level := .info
  records : List Record := []
deriving DecidableEq, Repr

namespace Journal

/-- Keeps a record if the threshold admits it. -/
def write (j : Journal) (r : Record) : Journal :=
  if j.threshold.admits r.level then { j with records := j.records ++ [r] } else j

/-- The lines of the records kept. -/
def lines (j : Journal) : List String := j.records.flatMap Record.lines

@[simp] theorem threshold_write (j : Journal) (r : Record) :
    (j.write r).threshold = j.threshold := by
  unfold write
  split <;> rfl

end Journal

end GroupingPlanner
