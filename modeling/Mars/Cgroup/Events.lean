import Mars.Core.Text

/-! # Flat keyed cgroup files -/

namespace Mars.Events
open Text

/-- Lines end at a newline, which the last line may lack. -/
def lines (text : List Char) : List (List Char) :=
  let pieces := text.splitOn '\n'
  if pieces.getLast? = some [] then pieces.dropLast else pieces

def parseLine (line : List Char) : Option (List Char × Nat) :=
  match splitWhitespace line with
  | key :: value :: _ => (parseU64 value).map fun n => (key, n)
  | _ => none

def parseFlatKeyed (text : List Char) : List (List Char × Nat) :=
  (lines text).filterMap parseLine

/-- Collecting into a map keeps the last line of a key. -/
def get (entries : List (List Char × Nat)) (key : String) : Option Nat :=
  (entries.reverse.find? fun entry => entry.1 == key.toList).map Prod.snd

end Mars.Events
