import FlowTypes.Diagnostic.Source
import FlowTypes.Text.Space

/-!
# Excerpts of a line

A line is shown through a window. Of a deep indentation the window leaves out all but some
columns, and if the line still takes more room than there is, the window is as wide as the room
and moves towards the place that is marked. Three dots cover the columns next to what was cut
off, so they take no room of their own.

The window never starts after the marked place (`Window.of_first_le`), so carets can be moved
left by the columns that were skipped.
-/

namespace FlowTypes.Diagnostic

/-! ## Windows -/

/-- The columns of a line that are shown: from `first` up to `last`. -/
structure Window where
  first : Nat
  last : Nat
  deriving DecidableEq

/-- The columns kept free on both sides of a place, for the dots and some air. -/
def air : Nat := 6

/-- The columns that white space starts a line with: four for a tab, one for any other. A line of
nothing but white space has no indentation. -/
def indentation (line : List Char) : Nat :=
  if line.all isSpace then 0
  else (line.takeWhile isSpace).foldr (fun c width => (if c = '\t' then 4 else 1) + width) 0

/-- What is left out of an indentation: nothing up to twenty columns, all but sixteen of more. -/
def indentationCut (blank : Nat) : Nat := if 20 < blank then blank - 16 else 0

/-- The window on a line of some width whose columns from `start` up to `stop` are marked. Blank
columns count up to the marked ones only. -/
def Window.of (room width blank start stop : Nat) : Window :=
  let blank := min blank start - air
  let left := start - air
  let right := stop + air
  let cut := indentationCut blank
  let target : Window :=
    if width - cut ≤ room then ⟨cut, width⟩
    else if right - blank ≤ room then ⟨blank, blank + room⟩
    else if right - left ≤ room then
      let first := left - (room - (right - left)) / 2
      ⟨first, first + room⟩
    else ⟨left, right⟩
  ⟨min target.first width, if width - target.first ≤ room then width else min width target.last⟩

/-- A window starts at or before the place that is marked. -/
theorem Window.of_first_le (room width blank start stop : Nat) :
    (Window.of room width blank start stop).first ≤ start := by
  simp only [Window.of, indentationCut]
  repeat' split
  all_goals dsimp only
  all_goals omega

/-! ## Excerpts -/

/-- What is left of characters after some columns. A character that lies on the border is left
out. -/
def skipColumns : Nat → List Char → List Char
  | 0, cs => cs
  | _ + 1, [] => []
  | n + 1, c :: cs => skipColumns (n + 1 - displayWidth c) cs

/-- How many of the first characters cover some columns. -/
def covering (n : Nat) : List Char → Nat
  | [] => 0
  | c :: cs => if n ≤ displayWidth c then 1 else covering (n - displayWidth c) cs + 1

/-- The sign for what was cut off. -/
def dots : String := "..."

/-- A part of a line with the marks of what was cut off. -/
structure Excerpt where
  /-- The blanks after the dots on the left, if something was cut off there. -/
  leading : Option Nat
  /-- The characters that are shown. -/
  text : List Char
  /-- What follows the dots on the right, if something was cut off there. -/
  trailing : Option (List Char)
  /-- The columns that were skipped on the left. -/
  skipped : Nat
  deriving DecidableEq

/-- The excerpt of a line through a window. Dots cover whole characters, on the left with blanks
up to the next one, and on the right one character for each dot. -/
def Excerpt.of (line : List Char) (window : Window) : Excerpt :=
  let printed := line.flatMap shownChar
  let rest := skipColumns window.first printed
  let seen := within displayWidth (window.last - window.first) rest
  let covered := if 0 < window.first then covering dots.length seen else 0
  let leading := totalWidth (seen.take covered) - dots.length
  let text := seen.drop covered
  let kept := text.length - covering dots.length seen.reverse
  let cutRight := window.last < totalWidth printed
  { leading := if 0 < window.first then some leading else none
    text := if cutRight then text.take kept else text
    trailing := if cutRight then some (text.drop (kept + dots.length)) else none
    skipped := totalWidth printed - totalWidth rest }

end FlowTypes.Diagnostic
