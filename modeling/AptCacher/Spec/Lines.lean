import Mathlib.Data.List.Basic
import Mathlib.Data.List.TakeWhile

/-!
# Lines

How a scanner cuts a text into lines, and lines into the runs between blank ones.

* `rawLines`, `dropCR`, `linesOf`: the lines; a last line without a newline counts if it is not
  empty.
* `scanLines`: the lines up to one that does not fit in the scanner's buffer.
* `runs`: the lines between blank lines.
* `linesOf_append`, `runs_append_blank`: texts and lines put together.
-/

namespace AptCacher.Spec

/-! ## Lines of a text -/

/-- A carriage return at the end of a line is not part of it. -/
def dropCR (line : List Char) : List Char :=
  if line.getLast? = some '\r' then line.dropLast else line

/-- What stands between the newlines of a text. -/
def rawLines (text : List Char) : List (List Char) :=
  if (text.splitOn '\n').getLast? = some [] then (text.splitOn '\n').dropLast
  else text.splitOn '\n'

/-- The lines of a text. -/
def linesOf (text : List Char) : List (List Char) := (rawLines text).map dropCR

/-- The lines that a scanner delivers, and whether they are all of them. -/
structure Scan where
  lines : List (List Char)
  complete : Bool
  deriving DecidableEq

/-- A scanner whose buffer has `limit` bytes gives up at a line that fills it. -/
def scanLines (limit : Nat) (text : List Char) : Scan where
  lines := ((rawLines text).takeWhile fun line => decide (line.length < limit)).map dropCR
  complete := (rawLines text).all fun line => decide (line.length < limit)

theorem scanLines_lines {limit : Nat} {text : List Char}
    (h : (scanLines limit text).complete = true) : (scanLines limit text).lines = linesOf text := by
  have hall : (rawLines text).takeWhile (fun line => decide (line.length < limit)) = rawLines text :=
    List.takeWhile_eq_self_iff.mpr (List.all_eq_true.mp h)
  rw [scanLines, linesOf, hall]

theorem splitOn_append_newline (a b : List Char) :
    (a ++ '\n' :: b).splitOn '\n' = a.splitOn '\n' ++ b.splitOn '\n' :=
  List.splitOnP_append_cons a b (by decide)

theorem rawLines_append_newline (a b : List Char) :
    rawLines (a ++ '\n' :: b) = rawLines (a ++ ['\n']) ++ rawLines b := by
  have hne := List.splitOn_ne_nil '\n' b
  have ha : rawLines (a ++ ['\n']) = a.splitOn '\n' := by
    rw [rawLines, splitOn_append_newline]
    simp
  rw [ha, rawLines, rawLines, splitOn_append_newline, List.getLast?_append_of_ne_nil _ hne]
  split
  · rw [List.dropLast_append_of_ne_nil hne]
  · rfl

/-- The text ends with a newline, or has no characters. -/
def Closed (text : List Char) : Prop := text = [] ∨ text.getLast? = some '\n'

theorem rawLines_append {a : List Char} (h : Closed a) (b : List Char) :
    rawLines (a ++ b) = rawLines a ++ rawLines b := by
  rcases h with rfl | h
  · rfl
  · obtain ⟨a', rfl⟩ := List.getLast?_eq_some_iff.mp h
    rw [List.append_assoc]
    exact rawLines_append_newline a' b

theorem linesOf_append {a : List Char} (h : Closed a) (b : List Char) :
    linesOf (a ++ b) = linesOf a ++ linesOf b := by
  rw [linesOf, rawLines_append h, List.map_append, linesOf, linesOf]

theorem complete_append {limit : Nat} {a : List Char} (h : Closed a) (b : List Char) :
    (scanLines limit (a ++ b)).complete =
      ((scanLines limit a).complete && (scanLines limit b).complete) := by
  simp only [scanLines, rawLines_append h, List.all_append]

/-! ## Runs of lines -/

/-- The runs of lines between blank lines, if the lines `p` stand before. -/
def runsFrom (p : List (List Char)) : List (List Char) → List (List (List Char))
  | [] => [p]
  | l :: ls => if l = [] then p :: runsFrom [] ls else runsFrom (p ++ [l]) ls

/-- The runs of lines between blank lines. -/
def runs (lines : List (List Char)) : List (List (List Char)) := runsFrom [] lines

theorem runsFrom_head (p lines : List (List Char)) :
    ∃ q rest, runsFrom p lines = (p ++ q) :: rest := by
  induction lines generalizing p with
  | nil => exact ⟨[], [], by rw [runsFrom, List.append_nil]⟩
  | cons l ls ih =>
    rw [runsFrom]
    split
    · exact ⟨[], _, by rw [List.append_nil]⟩
    · obtain ⟨q, rest, h⟩ := ih (p ++ [l])
      exact ⟨l :: q, rest, by rw [h, List.append_assoc]; rfl⟩

theorem runsFrom_append_blank (p a b : List (List Char)) :
    runsFrom p (a ++ [] :: b) = runsFrom p a ++ runs b := by
  induction a generalizing p with
  | nil => rfl
  | cons l ls ih =>
    rw [List.cons_append, runsFrom, runsFrom]
    split
    · rw [ih, List.cons_append]
    · rw [ih]

theorem runs_append_blank (a b : List (List Char)) : runs (a ++ [] :: b) = runs a ++ runs b :=
  runsFrom_append_blank [] a b

end AptCacher.Spec
