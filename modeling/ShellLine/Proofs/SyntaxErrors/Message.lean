import ShellLine.ParseError
import ShellLine.Proofs.Source.Location
import ShellLine.Proofs.Text.Quoted

set_option autoImplicit false

namespace ShellLine

open Text

namespace Expected

def listed (init : List Expected) (last : Expected) : List Char :=
  if init = [] then last.describe
  else ", ".toList.intercalate (init.map describe) ++ " or ".toList ++ last.describe

theorem describe_one_line (e : Expected) : '\n' ∉ e.describe := by
  cases e with
  | literal text => exact quote_one_line _
  | token shape => cases shape <;> decide
  | endOfInput => decide

theorem enumerate_pair (e last : Expected) :
    enumerate [e, last] = e.describe ++ " or ".toList ++ last.describe := rfl

theorem enumerate_more (e f g : Expected) (others : List Expected) :
    enumerate (e :: f :: g :: others) = e.describe ++ ", ".toList ++ enumerate (f :: g :: others) := rfl

theorem enumerate_concat (init : List Expected) (last : Expected) :
    enumerate (init ++ [last]) = listed init last := by
  induction init with
  | nil => rfl
  | cons e init ih =>
      rw [listed, if_neg (List.cons_ne_nil _ _)]
      cases init with
      | nil =>
          rw [List.map_singleton, List.intercalate_singleton]
          exact enumerate_pair e last
      | cons f others =>
          rw [listed, if_neg (List.cons_ne_nil _ _), List.map_cons] at ih
          have more : enumerate (e :: f :: others ++ [last]) =
              e.describe ++ ", ".toList ++ enumerate (f :: others ++ [last]) := by
            cases others <;> exact enumerate_more ..
          rw [more, ih, List.map_cons, List.map_cons, List.intercalate_cons_cons]
          simp only [List.append_assoc]

theorem enumerate_one_line (expected : List Expected) : '\n' ∉ enumerate expected := by
  induction expected with
  | nil =>
      change '\n' ∉ "valid input".toList
      decide
  | cons e others ih =>
      rcases others with - | ⟨f, - | ⟨g, others⟩⟩
      · exact describe_one_line e
      · simp [enumerate_pair, describe_one_line]
      · simp [enumerate_more, describe_one_line, ih]

theorem message_chars (expected : List Expected) (found : Option Char) :
    (message expected found).toList = "Expected ".toList ++ enumerate expected ++ " but ".toList ++
      describeFound found ++ " found.".toList := String.toList_ofList

theorem message_one_line (expected : List Expected) (found : Option Char) :
    '\n' ∉ (message expected found).toList := by
  have foundLine : '\n' ∉ describeFound found := by
    cases found with
    | none => decide
    | some c => exact quote_one_line [c]
  rw [message_chars]
  simp only [List.mem_append, not_or]
  exact ⟨⟨⟨⟨by decide, enumerate_one_line expected⟩, by decide⟩, foundLine⟩, by decide⟩

end Expected

section Context

theorem context_lines (e : SyntaxError) : e.context.toList.splitOn '\n' =
    [e.message.toList, e.location.lineContent, List.replicate (e.location.column - 1) ' ' ++ ['^']] := by
  have joined : e.context.toList = ['\n'].intercalate
      [e.message.toList, e.location.lineContent, List.replicate (e.location.column - 1) ' ' ++ ['^']] := by
    simp [SyntaxError.context, caretContext, caretLine, SyntaxError.location, List.intercalate]
  have message : '\n' ∉ e.message.toList := Expected.message_one_line _ _
  have content : '\n' ∉ e.location.lineContent := content_one_line _ _
  rw [joined, List.splitOn_intercalate _ (by simp [message, content]) (List.cons_ne_nil _ _)]

end Context

end ShellLine
