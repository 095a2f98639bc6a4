/-
  Transcribe.Proofs.Step — what a stroke that was made has done.

  One statement for each operation that can stop: where the pen was, what stood there, and the pen
  it leaves. Proofs about runs take a script apart with these and never open an operation.
  - `run_append_eq_ok`: a script that was run was run part by part.
-/

import Transcribe.Proofs.Path
import Transcribe.Script.Basic

namespace Transcribe

open Text (Span Source byteLength)

theorem ok_of_toOption {α ε : Type} {e : Except ε α} {a : α} (h : e.toOption = some a) :
    e = .ok a := by
  cases e with
  | error x => cases h
  | ok b => exact congrArg Except.ok (Option.some.inj h)

namespace Job

variable {j : Job} {p q : Pen} {r r' : Script} {st : Stroke}

theorem run_append_eq_ok : j.run (r ++ r') p = .ok q ↔
    ∃ mid, j.run r p = .ok mid ∧ j.run r' mid = .ok q := by
  rw [run_append]
  cases j.run r p with
  | ok mid => simp [Except.bind]
  | error e => simp [Except.bind]

theorem run_cons_eq_ok : j.run (st :: r) p = .ok q ↔
    ∃ mid, j.stroke p st = .ok mid ∧ j.run r mid = .ok q := by
  rw [run_cons]
  cases j.stroke p st with
  | ok mid => simp [Except.bind]
  | error e => simp [Except.bind]

theorem run_singleton : j.run [st] p = j.stroke p st := by
  rw [run_cons]
  cases j.stroke p st <;> rfl

theorem enter_eq_ok {span : Span} :
    j.enter span p = .ok q ↔ p.position = span.start ∧ q = { p.note with trailing := false } := by
  unfold enter requireAt
  split
  · rename_i h
    simp [h, bind, Except.bind, pure, Except.pure, eq_comm]
  · rename_i h
    simp only [h, false_and, iff_false]
    unfold breach stop
    split <;> (try split) <;> simp [bind, Except.bind]

theorem leave_eq_ok {span : Span} (h : j.leave span p = .ok q) :
    q = p.note ∧ (p.trailing = false → p.position = span.stop) := by
  unfold leave at h
  cases ht : p.trailing with
  | true =>
    rw [ht, if_pos rfl, requireFrom] at h
    split at h
    · exact ⟨(Except.ok.inj h).symm, fun h => by cases h⟩
    · unfold breach stop at h
      split at h <;> (try split at h) <;> cases h
  | false =>
    rw [ht, if_neg (by simp), requireAt] at h
    split at h
    · rename_i hpos
      exact ⟨(Except.ok.inj h).symm, fun _ => hpos⟩
    · unfold breach stop at h
      split at h <;> (try split at h) <;> cases h

theorem stop_ne_ok {f : Text.Place → Failure} : j.stop f p ≠ .ok q := by
  unfold stop
  split <;> simp

theorem expect_ok {t : String} (h : j.expect t p = .ok q) :
    (∃ cs, j.source.rest? p.position = some (t.toList ++ cs)) ∧
      q = p.moveTo (p.position + byteLength t.toList) := by
  unfold expect at h
  split at h
  · rename_i cs hcs
    split at h
    · rename_i ht
      obtain ⟨r, rfl⟩ := List.isPrefixOf_iff_prefix.1 ht
      exact ⟨⟨r, hcs⟩, (Except.ok.inj h).symm⟩
    · exact absurd h stop_ne_ok
  · split at h
    · cases h
    · exact absurd h stop_ne_ok

theorem swap_ok {t t' : String} (h : j.stroke p (.swap t t') = .ok q) :
    (∃ cs, j.source.rest? p.position = some (t.toList ++ cs)) ∧
      q = (p.moveTo (p.position + byteLength t.toList)).write t' := by
  rw [stroke] at h
  cases he : j.expect t p with
  | error e => simp [he, Functor.map, Except.map] at h
  | ok mid =>
    obtain ⟨hcs, rfl⟩ := expect_ok he
    rw [he] at h
    exact ⟨hcs, (Except.ok.inj h).symm⟩

theorem copySpace_ok {toBreak : Bool} (h : j.copySpace toBreak p = .ok q) :
    ∃ cs, j.source.slice? ⟨p.position, j.source.skipSpace toBreak p.position⟩ = some cs ∧
      q = (j.writeSpace cs p).moveTo (j.source.skipSpace toBreak p.position) := by
  simp only [copySpace] at h
  split at h
  · rename_i cs hcs
    exact ⟨cs, hcs, (Except.ok.inj h).symm⟩
  · cases h

theorem copySpace_position {toBreak : Bool} (h : j.copySpace toBreak p = .ok q) :
    q.position = j.source.skipSpace toBreak p.position := by
  obtain ⟨cs, -, rfl⟩ := copySpace_ok h
  rfl

theorem copyBreak_ok (h : j.copyBreak p = .ok q) :
    ∃ cs, j.source.slice? ⟨p.position, j.source.skipBreak p.position⟩ = some cs ∧
      q = (p.write (String.ofList cs)).moveTo (j.source.skipBreak p.position) := by
  simp only [copyBreak] at h
  split at h
  · rename_i cs hcs
    exact ⟨cs, hcs, (Except.ok.inj h).symm⟩
  · cases h

/-- A label, part by part. -/
theorem label_ok {access : Java.Access} {member owner : Nat}
    (h : j.label access member owner p = .ok q) :
    (j.source.lineNumber p.position = j.source.lineNumber member ∧
      ∃ mid, j.copySpace false p = .ok mid ∧ q = mid.write (Java.word access ++ ":" ++ " ")) ∨
    (j.source.lineNumber p.position ≠ j.source.lineNumber member ∧
      ∃ mid mid' column, j.copySpace true p = .ok mid ∧ j.copyBreak mid = .ok mid' ∧
        j.source.column? j.ruler owner = some column ∧
        q = j.newline { mid' with
          sink := (mid'.sink.padTo column).write (Java.word access ++ ":") }) := by
  unfold label at h
  dsimp only at h
  split at h
  · rename_i hline
    cases hcopy : j.copySpace false p with
    | error e => rw [hcopy] at h; cases h
    | ok mid =>
      rw [hcopy] at h
      exact .inl ⟨hline, mid, rfl, (Except.ok.inj h).symm⟩
  · rename_i hline
    cases hcopy : j.copySpace true p with
    | error e => rw [hcopy] at h; cases h
    | ok mid =>
      cases hbreak : j.copyBreak mid with
      | error e => simp [hcopy, hbreak, bind, Except.bind] at h
      | ok mid' =>
        cases hcolumn : j.source.column? j.ruler owner with
        | none => simp [hcopy, hbreak, hcolumn, bind, Except.bind] at h
        | some column =>
          simp only [hcopy, hbreak, hcolumn, bind, Except.bind] at h
          exact .inr ⟨hline, mid, mid', column, rfl, hbreak, rfl, (Except.ok.inj h).symm⟩

/-- A node's script that was run was entered at the start of the span and left at its end. -/
theorem framed_ok {span : Span} {body : Script} (h : j.run (Script.framed span body) p = .ok q) :
    ∃ mid, p.position = span.start ∧ j.run body { p.note with trailing := false } = .ok mid ∧
      q = mid.note ∧ (mid.trailing = false → mid.position = span.stop) := by
  obtain ⟨q', hbody, hleave⟩ := run_append_eq_ok.1 h
  obtain ⟨p', henter, hbody⟩ := run_cons_eq_ok.1 hbody
  obtain ⟨hstart, rfl⟩ := enter_eq_ok.1 henter
  rw [run_singleton] at hleave
  obtain ⟨hq, hstop⟩ := leave_eq_ok hleave
  exact ⟨q', hstart, hbody, hq, hstop⟩

/-- How the node before was left does not matter to one that is entered. -/
theorem framed_of_trailing {span : Span} {body : Script} (trailing : Bool)
    (h : j.run (Script.framed span body) p = .ok q) :
    j.run (Script.framed span body) { p with trailing } = .ok q := by
  obtain ⟨q', hbody, hleave⟩ := run_append_eq_ok.1 h
  obtain ⟨p', henter, hbody⟩ := run_cons_eq_ok.1 hbody
  obtain ⟨hstart, rfl⟩ := enter_eq_ok.1 henter
  exact run_append_eq_ok.2
    ⟨q', run_cons_eq_ok.2 ⟨_, enter_eq_ok.2 ⟨hstart, rfl⟩, hbody⟩, hleave⟩

end Job

/-- What holds of the strokes of scripts and of what stands between them holds of all. -/
theorem Script.all_intercalate {P : Stroke → Bool} {sep : Script} {as : List Script}
    (hsep : sep.all P = true) (h : ∀ r ∈ as, r.all P = true) :
    (sep.intercalate as).all P = true := by
  induction as with
  | nil => rfl
  | cons x as ih =>
    obtain ⟨hx, has⟩ := List.forall_mem_cons.1 h
    cases as with
    | nil => simpa [List.intercalate] using hx
    | cons y as => simp [List.intercalate_cons_cons, hx, hsep, ih has]

end Transcribe
