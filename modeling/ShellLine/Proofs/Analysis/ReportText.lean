import ShellLine.Analysis.Report
import ShellLine.Proofs.Text.Quoted

set_option autoImplicit false

namespace ShellLine

open Text

namespace Feature

theorem of_tag_of_feature (feature : Feature) : ofTag? feature.tag = some feature := by
  cases feature <;> rfl

theorem tag_plain (feature : Feature) : ∀ c ∈ feature.tag.toList, c ≠ ',' ∧ c ≠ '\n' := by
  cases feature <;> decide

theorem tag_nonempty (feature : Feature) : feature.tag.toList ≠ [] := by
  cases feature <;> decide

theorem tag_read (feature : Feature) {rest : List Char} (ends : rest.head?.all (· = ',') = true) :
    (feature.tag.toList ++ rest).takeWhile (· ≠ ',') = feature.tag.toList := by
  have plain : ∀ c ∈ feature.tag.toList, decide (c ≠ ',') = true :=
    fun c member => decide_eq_true (feature.tag_plain c member).1
  rw [List.takeWhile_append_of_pos plain]
  cases rest with
  | nil => rw [List.takeWhile_nil, List.append_nil]
  | cons c rest =>
      obtain rfl : c = ',' := by simpa using ends
      rw [List.takeWhile_cons_of_neg (by decide), List.append_nil]

theorem tag_told {a b : Feature} {rest more : List Char} (ends : rest.head?.all (· = ',') = true)
    (moreEnds : more.head?.all (· = ',') = true) (same : a.tag.toList ++ rest = b.tag.toList ++ more) :
    a = b ∧ rest = more := by
  have tags := congrArg (List.takeWhile (· ≠ ',')) same
  rw [tag_read a ends, tag_read b moreEnds, String.toList_inj] at tags
  have features := congrArg ofTag? tags
  rw [of_tag_of_feature, of_tag_of_feature, Option.some.injEq] at features
  obtain rfl := features
  exact ⟨rfl, List.append_cancel_left same⟩

end Feature

namespace Report

variable {features others : List Feature} {argv otherArgv : Option (List String)}

theorem feature_line_cons (first : Feature) (others : List Feature) :
    featureLine (first :: others) = ", ".toList.intercalate ((first :: others).map (·.tag.toList)) :=
  if_neg (List.cons_ne_nil first others)

theorem comma_behind {rest : List Char}
    (behind : Behind (fun feature : Feature => ", ".toList ++ feature.tag.toList) (· = []) rest) :
    rest.head?.all (· = ',') = true := by
  cases behind with
  | inl ends =>
      rw [ends]
      rfl
  | inr item =>
      obtain ⟨feature, more, rfl⟩ := item
      rfl

theorem feature_line_some (first : Feature) (others : List Feature) : featureLine (first :: others) ≠ "none".toList := by
  intro same
  rw [feature_line_cons, intercalate_map_cons] at same
  have read := congrArg (List.takeWhile (· ≠ ',')) same
  rw [first.tag_read (comma_behind (row_behind others rfl))] at read
  cases first <;> exact absurd read (by decide)

theorem feature_line_injective (same : featureLine features = featureLine others) : features = others := by
  cases features with
  | nil =>
      cases others with
      | nil => rfl
      | cons other others => exact absurd same.symm (feature_line_some other others)
  | cons first features =>
      cases others with
      | nil => exact absurd same (feature_line_some first features)
      | cons other others =>
          rw [feature_line_cons, feature_line_cons] at same
          exact intercalate_injective _ _ Feature.tag_nonempty
            (fun behind behindThen => Feature.tag_told (comma_behind behind) (comma_behind behindThen)) same

theorem argv_line_injective (same : argvLine argv = argvLine otherArgv) : argv = otherArgv := by
  have differs : ∀ texts, quoteList texts ≠ "not literal".toList := by
    intro texts same
    have heads : some '[' = "not literal".toList.head? := congrArg List.head? same
    exact absurd heads (by decide)
  cases argv with
  | none =>
      cases otherArgv with
      | none => rfl
      | some texts => exact absurd same.symm (differs texts)
  | some texts =>
      cases otherArgv with
      | none => exact absurd same (differs texts)
      | some otherTexts => exact congrArg some (quote_list_injective same)

theorem feature_line_one_line (features : List Feature) : '\n' ∉ featureLine features := by
  cases features with
  | nil => decide
  | cons first others =>
      have plain : ∀ feature : Feature, '\n' ∉ feature.tag.toList :=
        fun feature member => (feature.tag_plain '\n' member).2 rfl
      rw [feature_line_cons, List.map_cons, intercalate_cons]
      simp [plain]

theorem argv_line_one_line (argv : Option (List String)) : '\n' ∉ argvLine argv := by
  cases argv with
  | none => decide
  | some texts => exact quote_list_one_line texts

theorem text_chars (report : Report) : report.text.toList =
    "features: ".toList ++ featureLine report.features ++ "\nargv: ".toList ++ argvLine report.literalArgv ++ ['\n'] :=
  String.toList_ofList

theorem text_lines (report : Report) : report.text.toList.splitOn '\n' =
    ["features: ".toList ++ featureLine report.features, "argv: ".toList ++ argvLine report.literalArgv, []] := by
  have whole : report.text.toList = ("features: ".toList ++ featureLine report.features) ++
      '\n' :: (("argv: ".toList ++ argvLine report.literalArgv) ++ '\n' :: []) := by
    have second : "\nargv: ".toList = '\n' :: "argv: ".toList := by decide
    rw [text_chars, second]
    simp only [List.append_assoc, List.cons_append]
  have firstPlain : '\n' ∉ "features: ".toList ++ featureLine report.features := by
    simp [feature_line_one_line]
  have secondPlain : '\n' ∉ "argv: ".toList ++ argvLine report.literalArgv := by
    simp [argv_line_one_line]
  rw [whole, List.splitOn_append_cons_self_of_not_mem firstPlain,
    List.splitOn_append_cons_self_of_not_mem secondPlain, List.splitOn_nil]

end Report

/-- The text of a report is two lines; the first has the features of no other list and the second is that of
no other argument vector, so no other report has the text. -/
theorem report_text_unambiguous (report other : Report) :
    report.text.toList.splitOn '\n' = ["features: ".toList ++ Report.featureLine report.features,
        "argv: ".toList ++ Report.argvLine report.literalArgv, []] ∧
      (Report.featureLine report.features = Report.featureLine other.features ↔ report.features = other.features) ∧
      (Report.argvLine report.literalArgv = Report.argvLine other.literalArgv ↔
        report.literalArgv = other.literalArgv) ∧
      (report.text = other.text ↔ report = other) := by
  have features : Report.featureLine report.features = Report.featureLine other.features ↔
      report.features = other.features := ⟨Report.feature_line_injective, congrArg _⟩
  have argv : Report.argvLine report.literalArgv = Report.argvLine other.literalArgv ↔
      report.literalArgv = other.literalArgv := ⟨Report.argv_line_injective, congrArg _⟩
  refine ⟨report.text_lines, features, argv, ?_, congrArg _⟩
  intro same
  have lines := congrArg (fun text : String => text.toList.splitOn '\n') same
  simp only [Report.text_lines, List.cons.injEq, and_true] at lines
  obtain ⟨first, second⟩ := lines
  obtain ⟨reportFeatures, reportArgv⟩ := report
  obtain ⟨otherFeatures, otherArgv⟩ := other
  rw [Report.mk.injEq]
  exact ⟨features.mp (List.append_cancel_left first), argv.mp (List.append_cancel_left second)⟩

-- Arguments that look like the end of one, like the mark of no arguments and like a further line.
example : (Report.mk [.list] (some ["a\", \"b", "not literal", "\n"])).text =
    "features: list\nargv: [\"a\\\", \\\"b\", \"not literal\", \"\\n\"]\n" := by
  decide +kernel

end ShellLine
