/-
  Transcribe.Proofs.Place — a boundary has a column and can be described to a reader.

  Lines start and end at boundaries, so the text between the start of a line and a boundary of
  that line can always be cut out.
  - `exists_column`, `exists_place`: neither fails at a boundary.
-/

import Transcribe.Proofs.Gap

namespace Transcribe.Text.Source

variable {s : Source}

/-- Between two boundaries in order a slice can be cut. -/
theorem exists_slice {a b : Nat} (ha : s.Boundary a) (hb : s.Boundary b) (h : a ≤ b) :
    ∃ cs, s.slice? ⟨a, b⟩ = some cs := by
  obtain ⟨cs, hcs⟩ := ha
  obtain ⟨r, hr⟩ := hb
  obtain ⟨c, hc, rfl⟩ := rest?_eq_some_iff.1 hcs
  obtain ⟨d, hd, rfl⟩ := rest?_eq_some_iff.1 hr
  rw [hc] at hd
  rcases List.append_eq_append_iff.1 hd with ⟨e, rfl, rfl⟩ | ⟨e, rfl, rfl⟩
  · exact ⟨e, slice?_eq_some hcs (by simp)⟩
  · obtain rfl : e = [] := by
      cases e with
      | nil => rfl
      | cons x e =>
        have := x.utf8Size_pos
        simp only [byteLength_append, byteLength_cons] at h
        omega
    exact ⟨[], slice?_eq_some (by simpa using hcs) (by simp)⟩

/-! ## Lines -/

theorem boundary_of_mem_lineStartsFrom {o x : Nat} {cs : List Char} (ho : s.rest? o = some cs)
    (hx : x ∈ lineStartsFrom o cs) : s.Boundary x := by
  fun_induction lineStartsFrom o cs with
  | case1 o cs ih =>
    have ho' : s.rest? (o + 2) = some cs := rest?_add (a := ['\r', '\n']) ho
    rcases List.mem_cons.1 hx with rfl | hx
    · exact ⟨cs, ho'⟩
    · exact ih ho' hx
  | case2 o c cs _ hb ih =>
    have ho' := rest?_cons ho
    rw [utf8Size_of_break hb] at ho'
    rcases List.mem_cons.1 hx with rfl | hx
    · exact ⟨cs, ho'⟩
    · exact ih ho' hx
  | case3 o c cs _ hb ih => exact ih (rest?_cons ho) hx
  | case4 => cases hx

theorem boundary_of_mem_lineStarts {x : Nat} (hx : x ∈ s.lineStarts) : s.Boundary x := by
  rw [s.lineStarts_eq, Text.lineStarts] at hx
  rcases List.mem_cons.1 hx with rfl | hx
  · exact boundary_zero
  · exact boundary_of_mem_lineStartsFrom (dropBytes?_zero _) hx

theorem lineStart_mem (o : Nat) : s.lineStart o ∈ s.lineStarts.filter (· ≤ o) := by
  have h0 : 0 ∈ s.lineStarts.filter (· ≤ o) := by simp [s.lineStarts_eq, Text.lineStarts]
  rw [lineStart, List.getLastD_eq_getLast?, List.getLast?_eq_some_getLast (List.ne_nil_of_mem h0)]
  exact List.getLast_mem _

theorem boundary_lineStart (o : Nat) : s.Boundary (s.lineStart o) :=
  boundary_of_mem_lineStarts (List.mem_filter.1 (lineStart_mem o)).1

theorem lineStart_le (o : Nat) : s.lineStart o ≤ o := by
  simpa using (List.mem_filter.1 (lineStart_mem (s := s) o)).2

theorem lineEndFrom_spec {target o : Nat} {cs : List Char} (ho : s.rest? o = some cs)
    (ht : target ≤ s.size) :
    s.Boundary (lineEndFrom target o cs) ∧ target ≤ lineEndFrom target o cs := by
  fun_induction lineEndFrom target o cs with
  | case1 o =>
    have := add_byteLength ho
    exact ⟨⟨[], ho⟩, by simp only [byteLength_nil] at this; omega⟩
  | case2 o c cs h =>
    simp only [Bool.and_eq_true, decide_eq_true_eq] at h
    exact ⟨⟨_, ho⟩, h.1⟩
  | case3 o c cs h ih => exact ih (rest?_cons ho)

/-! ## Columns and places -/

theorem exists_column {o : Nat} (r : Ruler) (h : s.Boundary o) : ∃ n, s.column? r o = some n := by
  have hm : min o s.size = o := Nat.min_eq_left (le_size h)
  obtain ⟨cs, hcs⟩ := exists_slice (boundary_lineStart o) h (lineStart_le o)
  exact ⟨_, by rw [column?, hm, hcs, Option.map_some]⟩

theorem exists_place {o : Nat} (r : Ruler) (h : s.Boundary o) :
    ∃ p, s.place? r o = some p ∧ p.offset = o := by
  have hm : min o s.size = o := Nat.min_eq_left (le_size h)
  obtain ⟨he, hle⟩ := lineEndFrom_spec (dropBytes?_zero s.chars) (le_size h)
  obtain ⟨cs, hcs⟩ := exists_slice (boundary_lineStart o) h (lineStart_le o)
  obtain ⟨ds, hds⟩ := exists_slice (boundary_lineStart o) he (Nat.le_trans (lineStart_le o) hle)
  rw [← lineEnd] at hds
  exact ⟨_, by simp only [place?, hm, hcs, hds]; rfl, rfl⟩

end Transcribe.Text.Source
