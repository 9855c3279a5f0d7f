import Mathlib.Data.List.Infix
import ShellLine.CommandLine.Program

set_option autoImplicit false

namespace ShellLine.CommandLine

theorem occurs_in_iff (part text : List Char) : occursIn part text = true ↔ part <:+: text := by
  induction text with
  | nil => rw [occursIn, List.isPrefixOf_iff_prefix, List.prefix_nil, List.infix_nil]
  | cons c rest ih => rw [occursIn, Bool.or_eq_true, List.isPrefixOf_iff_prefix, ih, List.infix_cons_iff]

variable {fault : Fault}

theorem message_of_told
    (told : ∀ cause ∈ fault.causes, cause.message.toList <:+: fault.top.message.toList) :
    fault.message = fault.top.message := by
  refine if_pos (List.all_eq_true.mpr fun cause member => ?_)
  exact (occurs_in_iff _ _).mpr (told cause member)

theorem message_of_untold {cause : Cause} (member : cause ∈ fault.causes)
    (untold : ¬ cause.message.toList <:+: fault.top.message.toList) :
    fault.message = fault.top.message ++ Fault.causeLines 0 fault.causes := by
  refine if_neg fun all => untold ?_
  exact (occurs_in_iff _ _).mp (List.all_eq_true.mp all cause member)

theorem message_of_single (cause : Cause) : (Fault.of cause).message = cause.message :=
  message_of_told nofun

theorem conclude_told (out : String) (told : fault.message ≠ "") :
    conclude (.error fault, out) = .exit fault.code out ("Error: " ++ fault.message ++ "\n") := by
  rw [conclude, if_neg told]

theorem append_told {first : String} (told : first ≠ "") (rest : String) : first ++ rest ≠ "" := by
  intro empty
  have chars := congrArg String.toList empty
  rw [String.toList_append] at chars
  exact told (String.toList_inj.mp (List.append_eq_nil_iff.mp chars).1)

theorem expectation_told (expected : List Expected) (found : Option Char) :
    Expected.message expected found ≠ "" := by
  unfold Expected.message
  rw [ne_eq, String.ofList_eq_empty_iff]
  refine List.append_ne_nil_of_right_ne_nil _ ?_
  simp

theorem syntax_error_told (e : SyntaxError) : e.render ≠ "" := by
  rw [SyntaxError.render]
  cases e.style with
  | context => exact append_told (append_told (expectation_told _ _) _) _
  | bare => exact expectation_told _ _

theorem parse_error_told (e : ParseError) : e.message ≠ "" := by
  unfold ParseError.message
  cases e with
  | malformed e => exact syntax_error_told e
  | hereDocument line column =>
      dsimp only
      simp only [String.append_assoc]
      exact append_told (by simp) _
  | inputTooLong length limit =>
      dsimp only
      simp only [String.append_assoc]
      exact append_told (by simp) _
  | nestingTooDeep limit => exact append_told (append_told (by simp) _) _

end ShellLine.CommandLine
