import Mars.Core.JsonLines

/-! # Writers of JSON

A value is written on one line or pretty-printed. Of a writer it is only taken that what
it writes is JSON for the value, and that the compact form is one line.
-/

namespace JsonRead
open JsonText (escapeChar)
open Text

structure Writer (α : Type) where
  toString : α → Option String
  toStringPretty : α → Option String

section writers
variable {α : Type}

structure Writer.Writes (writer : Writer α) (value : α → Value) : Prop where
  compact : ∀ a text, writer.toString a = some text → parse text.toList = some (value a)
  oneLine : ∀ a text, writer.toString a = some text → Unbroken text.toList
  pretty : ∀ a text, writer.toStringPretty a = some text → parse text.toList = some (value a)

def Writer.Succeeds (writer : Writer α) : Prop := ∀ a, (writer.toString a).isSome = true

/-- The writer that prints the value. -/
def printer (value : α → Value) : Writer α where
  toString := fun a => some (String.ofList (print escapeChar (value a)))
  toStringPretty := fun a => some (String.ofList (pretty escapeChar 0 (value a)))

theorem parse_print_escaped (v : Value) : parse (print escapeChar v) = some v := by
  rw [parse_print readable_escapeChar, if_pos (all_true v)]

theorem printer_writes (value : α → Value) : (printer value).Writes value where
  compact := by
    intro a text htext
    rw [← Option.some.inj htext, String.toList_ofList]
    exact parse_print_escaped (value a)
  oneLine := by
    intro a text htext
    rw [← Option.some.inj htext, String.toList_ofList]
    exact unbroken_print (value a)
  pretty := by
    intro a text htext
    rw [← Option.some.inj htext, String.toList_ofList]
    exact parse_pretty_escaped (value a)

theorem printer_succeeds (value : α → Value) : (printer value).Succeeds := fun _ => rfl

end writers

end JsonRead
