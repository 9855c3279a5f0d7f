import ShellLine.Proofs.Bytewise.Commands

set_option autoImplicit false

namespace ShellLine.Bytewise

open Text

section Calls

variable {input : String} {limit bound level : Nat} {rule : Rule} {s : State} {c e : ShellLine.State}
  {value : Option Node}

theorem ending_of_kept (isKept : rule.isKept = true) : callEnding rule = back := by
  cases rule <;> first | rfl | cases isKept

theorem ending_of_unkept (unkept : rule.isKept = false) : callEnding rule = anywhere := by
  cases rule <;> first | rfl | cases unkept

theorem comes_replayed {entry : Entry} (sent : Matches input s c) (kept : Mode.kept? ⟨true, limit⟩ rule c = some entry) :
    Comes input limit (callEnding rule) (.call rule) level s c (ShellLine.replay entry c).1 (ShellLine.replay entry c).2 := by
  obtain ⟨-, isKept, -⟩ := kept_in_table kept
  have found : s.kept? rule = some (entryAt input entry) := by rw [kept_matches sent isKept, kept, Option.map_some]
  have ran : Runs input.toList limit (.call rule) level s _ _ := runs_replayed isKept found
  have sound := sound_replay sent.sound kept
  cases entry with
  | some pair =>
      have moved := sent.moved sound.cursor
      exact ⟨_, _, ran, safe_stands moved, moved⟩
  | none =>
      rw [ending_of_kept isKept]
      exact ⟨_, _, c.cursor, ran, safe_nil, rfl, sent⟩

theorem comes_recorded {t : ShellLine.State} (sent : Matches input s c) (isKept : rule.isKept = true)
    (missing : Mode.kept? ⟨true, limit⟩ rule c = none) (body : Comes input limit anywhere (rules rule) level s c value t)
    (sound : (Mode.record ⟨true, limit⟩ rule c.cursor value t).2.Sound input.toList)
    (given : ∀ node, value = some node → attained none rule c.cursor node t.cursor) :
    Comes input limit back (.call rule) level s c value (Mode.record ⟨true, limit⟩ rule c.cursor value t).2 := by
  have unknown : s.kept? rule = none := by rw [kept_matches sent isKept, missing, Option.map_none]
  have keeps : (true && rule.isKept) = true := isKept
  cases value with
  | some node =>
      obtain ⟨trail, u, ran, safe, after⟩ := body
      have recorded : (Mode.record ⟨true, limit⟩ rule c.cursor (some node) t).2 =
          { t with table := t.table.insert (rule.height c.cursor) (some (node, t.cursor)) } := by
        rw [Mode.record]
        simp only [if_pos keeps]
        rfl
      rw [recorded] at sound ⊢
      have kept := keep_matches sent isKept after (some (node, t.cursor)) sound
        (fun other d same => by
          obtain ⟨rfl, rfl⟩ := Prod.mk.inj (Option.some.inj same)
          exact given node rfl)
      have entry : entryAt input (some (node, t.cursor)) = some (node, u.pos) := by
        rw [after.pos]
        rfl
      rw [entry] at kept
      exact ⟨_, _, runs_kept isKept unknown ran, safe_cons (safe_saves sent) (safe_append safe (safe_stands kept)), kept⟩
  | none =>
      obtain ⟨trail, u, d, ran, safe, -, after⟩ := body
      have recorded : (Mode.record ⟨true, limit⟩ rule c.cursor none t).2 =
          { t with cursor := c.cursor, table := t.table.insert (rule.height c.cursor) none } := by
        rw [Mode.record]
        simp only [if_pos keeps]
        rfl
      rw [recorded] at sound ⊢
      have restored := after.moved sent.sound.cursor
      rw [← sent.pos] at restored
      have kept := keep_matches sent isKept restored none sound fun _ _ given => by cases given
      exact ⟨_, _, c.cursor, runs_kept isKept unknown ran,
        safe_cons (safe_saves sent) (safe_append safe (safe_stands kept)), rfl, kept⟩

theorem comes_unkept {t : ShellLine.State} (unkept : rule.isKept = false)
    (body : Comes input limit anywhere (rules rule) level s c value t) :
    Comes input limit anywhere (.call rule) level s c value (Mode.record ⟨true, limit⟩ rule c.cursor value t).2 := by
  have keeps : ¬ (true && rule.isKept) = true := by simp [unkept]
  cases value with
  | some node =>
      obtain ⟨trail, u, ran, safe, after⟩ := body
      have recorded : (Mode.record ⟨true, limit⟩ rule c.cursor (some node) t).2 = t := by
        rw [Mode.record]
        simp only [if_neg keeps]
        rfl
      rw [recorded]
      exact ⟨_, u, runs_unkept unkept ran, safe, after⟩
  | none =>
      obtain ⟨trail, u, d, ran, safe, -, after⟩ := body
      have recorded : (Mode.record ⟨true, limit⟩ rule c.cursor none t).2 = { t with cursor := c.cursor } := by
        rw [Mode.record]
        simp only [if_neg keeps]
        rfl
      rw [recorded]
      exact ⟨_, u, d, runs_unkept unkept ran, safe, trivial, after⟩

theorem calls_refine (input : String) (limit bound : Nat) : CallsRefine input limit bound := by
  induction bound with
  | zero =>
      intro rule here level s c trace value e short sent _ runs
      exact absurd (trace_positive runs) (Nat.not_lt_of_le short)
  | succ bound ih =>
      intro rule here level s c trace value e short sent _ runs
      have ran := has_run_of_runs runs
      rw [Parser.HasRun] at ran
      obtain ⟨-, sound, -⟩ := runs_sound runs sent.sound
      cases kept : Mode.kept? ⟨true, limit⟩ rule c with
      | some entry =>
          rw [kept] at ran
          obtain ⟨rfl, rfl⟩ := Prod.mk.inj ran.2
          exact comes_replayed sent kept
      | none =>
          rw [kept] at ran
          obtain ⟨tried, t, before, body, rfl, same⟩ := ran
          have came := refines_rule ih rule level s c before tried t (by simp at short; omega) sent trivial body
          have told : value = tried := (congrArg Prod.fst same).trans (record_value ..)
          have left : e = (Mode.record ⟨true, limit⟩ rule c.cursor tried t).2 := congrArg Prod.snd same
          have known : ∀ node, tried = some node → attained none rule c.cursor node t.cursor := by
            intro node given
            exact attained_closed _ _ _ _ _ ((runs_sound body sent.sound).2.2 node given)
          subst told
          rw [left] at sound ⊢
          cases isKept : rule.isKept with
          | true =>
              rw [ending_of_kept isKept]
              exact comes_recorded sent isKept kept came sound known
          | false =>
              rw [ending_of_unkept isKept]
              exact comes_unkept isKept came

end Calls

end ShellLine.Bytewise
