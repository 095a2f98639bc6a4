/-
  Transcribe.Proofs.Lines — the table of line starts and what is found in it.

  A line terminator is `\r\n`, or a `\n` or a `\r` that is no part of one. The table has the
  places they end at, in order, so counting its entries counts terminators, and its last entry at
  or before an offset is where the line of that offset starts.

  The table is also found byte by byte (`startsFrom`), and searched by halving it (`locate`,
  `search`): where no line starts at the offset the search misses, and the line is the one before.
  A line is told without the table as well: it is the longest span around an offset that no
  terminator reaches into (`LineOf`). Only an offset between a `\r` and its `\n` has no such span, for
  it cuts a terminator (`CutsBreak`).
  - `mem_lineStartsFrom`: the entries are the places behind which a line has ended.
  - `startsFrom_utf8`: the same table is found byte by byte.
  - `lineIndex_spec`: a search that halves the table comes to the line of an offset.
  - `exists_line`: the text around an offset, cut at the ends of its line.
  - `lines_exact`: numbers, starts and ends of lines are those the terminators give.
-/

import Mathlib.Data.List.TakeWhile
import Mathlib.Data.Set.Card
import Transcribe.Proofs.Attribution
import Transcribe.Proofs.Bytes
import Transcribe.Proofs.Place

namespace Transcribe.Text

variable {a b : List Char} {o x n : Nat} {xs : List Nat}

/-! ## Where lines end -/

/-- Whether a line has ended between `a` and `b`: behind `\n`, or behind a `\r` that no `\n`
follows. -/
def EndsLine (a b : List Char) : Prop :=
  a.getLast? = some '\n' ∨ a.getLast? = some '\r' ∧ b.head? ≠ some '\n'

theorem endsLine_cons {c : Char} (h : a ≠ []) :
    EndsLine (c :: a) b ↔ EndsLine a b := by
  obtain ⟨d, a, rfl⟩ := List.exists_cons_of_ne_nil h
  simp only [EndsLine, List.getLast?_cons_cons]

theorem isBreak_of_endsLine (h : EndsLine a b) :
    ∃ c, a.getLast? = some c ∧ isBreak c = true := by
  rcases h with h | ⟨h, -⟩
  · exact ⟨'\n', h, rfl⟩
  · exact ⟨'\r', h, rfl⟩

/-- The cuts of a text at which a line has ended: one behind its first character, and those of the
rest. -/
theorem exists_cut_cons {c : Char} {cs : List Char} :
    (∃ a b, c :: cs = a ++ b ∧ EndsLine a b ∧ x = o + byteLength a) ↔
      EndsLine [c] cs ∧ x = o + c.utf8Size ∨
        ∃ a b, cs = a ++ b ∧ EndsLine a b ∧ x = o + c.utf8Size + byteLength a := by
  constructor
  · rintro ⟨a, b, hcs, hend, rfl⟩
    cases a with
    | nil => simp [EndsLine] at hend
    | cons d a =>
      obtain ⟨rfl, rfl⟩ := List.cons.inj hcs
      by_cases ha : a = []
      · subst ha
        exact .inl ⟨hend, rfl⟩
      · refine .inr ⟨a, b, rfl, (endsLine_cons ha).1 hend, ?_⟩
        rw [byteLength_cons]
        omega
  · rintro (⟨hend, rfl⟩ | ⟨a, b, rfl, hend, rfl⟩)
    · exact ⟨[c], cs, rfl, hend, rfl⟩
    · refine ⟨c :: a, b, rfl, (endsLine_cons ?_).2 hend, ?_⟩
      · rintro rfl
        simp [EndsLine] at hend
      · rw [byteLength_cons]
        omega

/-- The table has the places behind which a line has ended, and no others. -/
theorem mem_lineStartsFrom {cs : List Char} :
    x ∈ lineStartsFrom o cs ↔ ∃ a b, cs = a ++ b ∧ EndsLine a b ∧ x = o + byteLength a := by
  fun_induction lineStartsFrom o cs with
  | case1 o cs ih =>
    have hcr : ¬ EndsLine ['\r'] ('\n' :: cs) := by simp [EndsLine]
    have hlf : EndsLine ['\n'] cs := by simp [EndsLine]
    have h1 : '\r'.utf8Size = 1 := rfl
    have h2 : '\n'.utf8Size = 1 := rfl
    rw [List.mem_cons, ih, exists_cut_cons, exists_cut_cons, h1, h2]
    simp only [hcr, hlf, false_and, true_and, false_or]
  | case2 o c cs hne hb ih =>
    have hend : EndsLine [c] cs := by
      rcases Scan.break_cases hb with rfl | rfl
      · exact .inl rfl
      · refine .inr ⟨rfl, fun hhead => ?_⟩
        obtain ⟨r, rfl⟩ := List.head?_eq_some_iff.1 hhead
        exact hne r rfl rfl
    rw [List.mem_cons, ih, exists_cut_cons, utf8Size_of_break hb]
    simp only [hend, true_and]
  | case3 o c cs hne hb ih =>
    have hend : ¬ EndsLine [c] cs := by
      intro hend
      obtain ⟨d, hd, hbreak⟩ := isBreak_of_endsLine hend
      obtain rfl : c = d := by simpa using hd
      exact hb hbreak
    rw [ih, exists_cut_cons]
    simp only [hend, false_and, false_or]
  | case4 =>
    simp only [List.not_mem_nil, false_iff]
    rintro ⟨a, b, hcs, hend, -⟩
    obtain ⟨rfl, -⟩ := List.append_eq_nil_iff.1 hcs.symm
    simp [EndsLine] at hend

theorem lt_of_mem_lineStartsFrom {cs : List Char} (h : x ∈ lineStartsFrom o cs) :
    o < x := by
  obtain ⟨a, b, -, hend, rfl⟩ := mem_lineStartsFrom.1 h
  cases a with
  | nil => simp [EndsLine] at hend
  | cons c a =>
    have := c.utf8Size_pos
    rw [byteLength_cons]
    omega

theorem pairwise_lineStartsFrom (o : Nat) (cs : List Char) :
    (lineStartsFrom o cs).Pairwise (· < ·) := by
  fun_induction lineStartsFrom o cs with
  | case1 o cs ih => exact List.pairwise_cons.2 ⟨fun x hx => lt_of_mem_lineStartsFrom hx, ih⟩
  | case2 o c cs _ _ ih => exact List.pairwise_cons.2 ⟨fun x hx => lt_of_mem_lineStartsFrom hx, ih⟩
  | case3 o c cs _ _ ih => exact ih
  | case4 => exact .nil

theorem pairwise_lineStarts (cs : List Char) : (lineStarts cs).Pairwise (· < ·) :=
  List.pairwise_cons.2 ⟨fun _ hx => lt_of_mem_lineStartsFrom hx, pairwise_lineStartsFrom 0 cs⟩

/-! ## The table by bytes -/

/-- The line starts behind byte `i`, where `bs` are the bytes from there: one behind every `\n`
and behind every `\r` that no `\n` follows. -/
def startsFrom (i : Nat) : List UInt8 → List Nat
  | [] => []
  | b :: bs =>
    if b == ascii '\n' || (b == ascii '\r' && bs.head? != some (ascii '\n')) then
      (i + 1) :: startsFrom (i + 1) bs
    else startsFrom (i + 1) bs

theorem startsFrom_high {hs : List UInt8} (h : ∀ b ∈ hs, 128 ≤ b.toNat) (i : Nat)
    (bs : List UInt8) : startsFrom i (hs ++ bs) = startsFrom (i + hs.length) bs := by
  induction hs generalizing i with
  | nil => rfl
  | cons b hs ih =>
    obtain ⟨hb, hhs⟩ := List.forall_mem_cons.1 h
    have hlf := ne_ascii_of_high hb (c := '\n') (by decide)
    have hcr := ne_ascii_of_high hb (c := '\r') (by decide)
    rw [List.cons_append, startsFrom, if_neg (by simp [hlf, hcr]), ih hhs, List.length_cons]
    congr 1
    omega

/-- Two bytes alone end lines, and neither is part of another character. -/
theorem startsFrom_utf8 (i : Nat) (cs : List Char) :
    startsFrom i (utf8 cs) = lineStartsFrom i cs := by
  fun_induction lineStartsFrom i cs with
  | case1 i cs ih =>
    show startsFrom i (ascii '\r' :: ascii '\n' :: utf8 cs) = _
    rw [startsFrom, if_neg (by simp [ascii]), startsFrom, if_pos (by simp), ih]
  | case2 i c cs hne hb ih =>
    rw [utf8_cons, encode_of_lt (lt_of_isBreak hb), List.singleton_append, startsFrom, if_pos, ih]
    rcases Scan.break_cases hb with rfl | rfl
    · rfl
    · have hhead : (utf8 cs).head? ≠ some (ascii '\n') := by
        intro hhead
        obtain ⟨bs, hbs⟩ := List.head?_eq_some_iff.1 hhead
        obtain ⟨r, rfl, -⟩ := utf8_eq_cons (by decide) hbs
        exact hne r rfl rfl
      simp [hhead]
  | case3 i c cs hne hb ih =>
    rw [utf8_cons]
    by_cases hlow : c.toNat < 128
    · have hnone : isBreakByte (ascii c) = false := by
        rw [isBreakByte_ascii hlow]
        simpa using hb
      simp only [isBreakByte, Bool.or_eq_false_iff] at hnone
      rw [encode_of_lt hlow, List.singleton_append, startsFrom,
        if_neg (by simp [hnone.1, hnone.2]), ← ih, utf8Size_of_lt hlow]
    · rw [startsFrom_high (high_encode hlow), String.length_utf8EncodeChar, ih]
  | case4 => rfl

/-! ## The search -/

/-- The index that is left when a table is halved, by comparing its middle with `o`, until one of
`size` entries from `base` on is left. -/
def locate (o : Nat) (xs : List Nat) (base size : Nat) : Nat :=
  if 1 < size then
    if xs[base + size / 2]?.any (o < ·) then locate o xs base (size - size / 2)
    else locate o xs (base + size / 2) (size - size / 2)
  else base
termination_by size

theorem lt_of_getElem? (h : xs.Pairwise (· < ·)) {i k y : Nat} (hx : xs[i]? = some x)
    (hy : xs[k]? = some y) (hik : i < k) : x < y := by
  obtain ⟨hi, rfl⟩ := List.getElem?_eq_some_iff.1 hx
  obtain ⟨hk, rfl⟩ := List.getElem?_eq_some_iff.1 hy
  exact List.pairwise_iff_getElem.1 h i k hi hk hik

/-- The index that is left has an entry at or before `o`, and the next one is behind `o`. -/
theorem locate_spec (o base : Nat) {size : Nat} (h : xs.Pairwise (· < ·)) (hsize : 0 < size)
    (hlen : base + size ≤ xs.length) (hlow : ∀ x ∈ xs[base]?, x ≤ o)
    (hhigh : ∀ x ∈ xs[base + size]?, o < x) :
    locate o xs base size < xs.length ∧ (∀ x ∈ xs[locate o xs base size]?, x ≤ o) ∧
      ∀ x ∈ xs[locate o xs base size + 1]?, o < x := by
  fun_induction locate o xs base size with
  | case1 base size hlong hmid ih =>
    apply ih (by omega) (by omega) hlow
    intro x hx
    cases hy : xs[base + size / 2]? with
    | none => simp [hy] at hmid
    | some y =>
      have hlt : o < y := by simpa [hy] using hmid
      rcases Nat.eq_or_lt_of_le (show base + size / 2 ≤ base + (size - size / 2) by omega)
        with heq | hlater
      · rw [← heq, hy] at hx
        exact Option.some.inj hx ▸ hlt
      · exact Nat.lt_trans hlt (lt_of_getElem? h hy hx hlater)
  | case2 base size hlong hmid ih =>
    apply ih (by omega) (by omega)
    · intro x hx
      rw [hx] at hmid
      simpa using hmid
    · intro x hx
      apply hhigh
      rwa [show base + size / 2 + (size - size / 2) = base + size by omega] at hx
  | case3 base size hshort =>
    obtain rfl : size = 1 := by omega
    exact ⟨by omega, hlow, hhigh⟩

def search (o : Nat) (xs : List Nat) : Except Nat Nat :=
  let i := locate o xs 0 xs.length
  match xs[i]? with
  | some x => if x = o then .ok i else if x < o then .error (i + 1) else .error i
  | none => .error i

/-- In a table with an entry at or before `o` the last of them stands just before the place where
`o` would have to be put in. -/
theorem search_spec (h : xs.Pairwise (· < ·)) (h0 : ∃ x ∈ xs.head?, x ≤ o) :
    ∃ i x, xs[i]? = some x ∧ x ≤ o ∧ (∀ y ∈ xs[i + 1]?, o < y) ∧
      (search o xs = .ok i ∨ search o xs = .error (i + 1)) := by
  obtain ⟨x₀, hx₀, hle₀⟩ := h0
  have hpos : 0 < xs.length := by
    cases xs with
    | nil => cases hx₀
    | cons => simp
  obtain ⟨hlt, hle, hnext⟩ := locate_spec o 0 h hpos (by omega)
    (by
      intro x hx
      rw [← List.head?_eq_getElem?] at hx
      exact Option.mem_unique hx₀ hx ▸ hle₀)
    (by simp)
  have hsome := List.getElem?_eq_getElem hlt
  have hle := hle _ hsome
  refine ⟨_, _, hsome, hle, hnext, ?_⟩
  by_cases heq : xs[locate o xs 0 xs.length] = o
  · left
    simp only [search, hsome, heq, if_true]
  · right
    have : xs[locate o xs 0 xs.length] < o := by omega
    simp only [search, hsome, heq, this, if_true, if_false]

/-- Counting and filtering a table in order cut it behind the last entry at or before `o`. -/
theorem filter_le_eq_take {i : Nat} (h : xs.Pairwise (· < ·)) (hx : xs[i]? = some x) (hle : x ≤ o)
    (hnext : ∀ y ∈ xs[i + 1]?, o < y) :
    xs.filter (· ≤ o) = xs.take (i + 1) := by
  obtain ⟨hi, rfl⟩ := List.getElem?_eq_some_iff.1 hx
  have hfront : (xs.take (i + 1)).filter (· ≤ o) = xs.take (i + 1) := by
    rw [List.filter_eq_self]
    intro y hy
    obtain ⟨k, hk, rfl⟩ := List.mem_iff_getElem.1 hy
    rw [List.length_take] at hk
    rw [List.getElem_take]
    rcases Nat.eq_or_lt_of_le (show k ≤ i by omega) with rfl | hlt
    · simpa using hle
    · have := List.pairwise_iff_getElem.1 h k i (by omega) hi hlt
      simp only [decide_eq_true_eq]
      omega
  have hback : (xs.drop (i + 1)).filter (· ≤ o) = [] := by
    rw [List.filter_eq_nil_iff]
    intro y hy
    obtain ⟨k, hk, rfl⟩ := List.mem_iff_getElem.1 hy
    rw [List.length_drop] at hk
    rw [List.getElem_drop]
    have hlt := hnext _ (List.getElem?_eq_getElem (show i + 1 < xs.length by omega))
    rcases Nat.eq_zero_or_pos k with rfl | hpos
    · simpa using hlt
    · have := List.pairwise_iff_getElem.1 h (i + 1) (i + 1 + k) (by omega) (by omega) (by omega)
      simp only [decide_eq_true_eq]
      omega
  conv_lhs => rw [← List.take_append_drop (i + 1) xs, List.filter_append, hfront, hback,
    List.append_nil]

namespace Source

variable {s : Source} {o : Nat}

theorem pairwise_lineStarts (s : Source) : s.lineStarts.Pairwise (· < ·) :=
  s.lineStarts_eq ▸ Text.pairwise_lineStarts s.chars

def lineIndex (s : Source) (o : Nat) : Nat :=
  match search o s.lineStarts with
  | .ok i => i
  | .error i => i - 1

/-- The search through the table comes to the line that counting its entries gives. -/
theorem lineIndex_spec (s : Source) (o : Nat) :
    s.lineIndex o + 1 = s.lineNumber o ∧ s.lineStarts[s.lineIndex o]? = some (s.lineStart o) := by
  obtain ⟨i, x, hx, hle, hnext, hsearch⟩ := search_spec (o := o) s.pairwise_lineStarts
    ⟨0, by rw [s.lineStarts_eq]; rfl, Nat.zero_le o⟩
  have hindex : s.lineIndex o = i := by
    rcases hsearch with hsearch | hsearch <;> simp [lineIndex, hsearch]
  have hfilter := filter_le_eq_take s.pairwise_lineStarts hx hle hnext
  obtain ⟨hi, rfl⟩ := List.getElem?_eq_some_iff.1 hx
  constructor
  · rw [hindex, lineNumber, List.countP_eq_length_filter, hfilter, List.length_take]
    omega
  · rw [hindex, lineStart, hfilter, List.take_add_one, hx, Option.toList_some,
      List.getLastD_concat]

/-! ## Terminators -/

def Terminator (s : Source) (x : Span) : Prop :=
  ∃ a w r, s.chars = a ++ (w ++ r) ∧ OneBreak w r ∧ (w = ['\n'] → a.getLast? ≠ some '\r') ∧
    x = ⟨byteLength a, byteLength a + byteLength w⟩

theorem Terminator.start_lt_stop {x : Span} (h : s.Terminator x) : x.start < x.stop := by
  obtain ⟨a, w, r, -, hw, -, rfl⟩ := h
  have hpos : 0 < byteLength w := by cases hw <;> decide
  show byteLength a < byteLength a + byteLength w
  omega

/-- Terminators end just where lines end. -/
theorem exists_terminator_iff :
    (∃ x, s.Terminator x ∧ x.stop = n) ↔
      ∃ a b, s.chars = a ++ b ∧ EndsLine a b ∧ n = byteLength a := by
  constructor
  · rintro ⟨_, ⟨a, w, r, hcs, hw, -, rfl⟩, rfl⟩
    refine ⟨a ++ w, r, by rw [hcs, List.append_assoc], ?_, (byteLength_append a w).symm⟩
    cases hw with
    | lf | crlf => exact .inl (by simp)
    | cr h => exact .inr ⟨by simp, h⟩
  · rintro ⟨a, b, hcs, hend, rfl⟩
    have hcut : ∀ c, a.getLast? = some c → ∃ d, a = d ++ [c] := fun c hc => by
      obtain ⟨d, rfl⟩ := List.getLast?_eq_some_iff.1 hc
      exact ⟨d, rfl⟩
    rcases hend with hlf | ⟨hcr, hb⟩
    · obtain ⟨d, rfl⟩ := hcut _ hlf
      by_cases hd : d.getLast? = some '\r'
      · obtain ⟨e, rfl⟩ := List.getLast?_eq_some_iff.1 hd
        exact ⟨_, ⟨e, ['\r', '\n'], b, by simp [hcs], .crlf b, by simp, rfl⟩, by simp⟩
      · exact ⟨_, ⟨d, ['\n'], b, by simp [hcs], .lf b, fun _ => hd, rfl⟩, by simp⟩
    · obtain ⟨d, rfl⟩ := hcut _ hcr
      exact ⟨_, ⟨d, ['\r'], b, by simp [hcs], .cr hb, by simp, rfl⟩, by simp⟩

theorem mem_lineStarts_iff :
    n ∈ s.lineStarts ↔ n = 0 ∨ ∃ x, s.Terminator x ∧ x.stop = n := by
  rw [s.lineStarts_eq, Text.lineStarts, List.mem_cons, mem_lineStartsFrom, exists_terminator_iff]
  simp only [Nat.zero_add]

/-- No two terminators end at one place. -/
theorem Terminator.eq_of_stop {x y : Span} (hx : s.Terminator x) (hy : s.Terminator y)
    (h : x.stop = y.stop) : x = y := by
  obtain ⟨a, w, r, hcs, hw, hlf, rfl⟩ := hx
  obtain ⟨a', w', r', hcs', hw', hlf', rfl⟩ := hy
  rw [hcs, ← List.append_assoc, ← List.append_assoc] at hcs'
  obtain ⟨haw, -⟩ := append_inj_of_byteLength hcs' (by simpa using h)
  -- What ends the text before `r` tells the three apart: a `\n` goes with a `\r` before it.
  have hlast := congrArg List.getLast? haw
  have hlast' := congrArg (fun t => t.dropLast.getLast?) haw
  have hsame : w = w' := by
    clear hcs hcs' h haw
    cases hw <;> cases hw' <;> simp_all
  subst hsame
  rw [List.append_cancel_right haw]

/-- Terminators are counted by where they end. -/
theorem lineNumber_eq_ncard (s : Source) (o : Nat) :
    s.lineNumber o = 1 + {x | s.Terminator x ∧ x.stop ≤ o}.ncard := by
  have hinj : Set.InjOn Span.stop {x | s.Terminator x ∧ x.stop ≤ o} :=
    fun x hx y hy h => hx.1.eq_of_stop hy.1 h
  have hset : Span.stop '' {x | s.Terminator x ∧ x.stop ≤ o}
      = ((lineStartsFrom 0 s.chars).filter (· ≤ o)).toFinset := by
    ext n
    simp only [Set.mem_image, Set.mem_ofPred_eq, List.coe_toFinset, List.mem_filter,
      mem_lineStartsFrom, Nat.zero_add, ← exists_terminator_iff, decide_eq_true_eq]
    constructor
    · rintro ⟨x, ⟨hx, hle⟩, rfl⟩
      exact ⟨⟨x, hx, rfl⟩, hle⟩
    · rintro ⟨⟨x, hx, rfl⟩, hle⟩
      exact ⟨x, ⟨hx, hle⟩, rfl⟩
  have hnodup : ((lineStartsFrom 0 s.chars).filter (· ≤ o)).Nodup :=
    ((pairwise_lineStartsFrom 0 s.chars).imp Nat.ne_of_lt).filter _
  rw [← hinj.ncard_image, hset, Set.ncard_coe_finset, List.toFinset_card_of_nodup hnodup,
    ← List.countP_eq_length_filter, lineNumber, s.lineStarts_eq, Text.lineStarts, List.countP_cons]
  simp [Nat.add_comm]

/-! ## The line of an offset -/

def CutsBreak (s : Source) (o : Nat) : Prop :=
  ∃ a b, s.chars = a ++ '\r' :: '\n' :: b ∧ o = byteLength a + 1

theorem le_lineStart (hn : n ∈ s.lineStarts) (hle : n ≤ o) : n ≤ s.lineStart o := by
  have hmem : n ∈ s.lineStarts.filter (· ≤ o) := List.mem_filter.2 ⟨hn, by simpa using hle⟩
  have hne := List.ne_nil_of_mem hmem
  have hsorted := s.pairwise_lineStarts.sublist (List.filter_sublist (p := (· ≤ o)))
  rw [lineStart, List.getLastD_eq_getLast?, List.getLast?_eq_some_getLast hne, Option.getD_some]
  rw [← List.dropLast_append_getLast hne] at hmem hsorted
  rcases List.mem_append.1 hmem with hfront | hlast
  · exact Nat.le_of_lt ((List.pairwise_append.1 hsorted).2.2 n hfront _ List.mem_cons_self)
  · exact Nat.le_of_eq (List.mem_singleton.1 hlast)

/-- The character at an offset inside a part of a text is in that part. -/
theorem mem_of_append_eq {x d r : List Char} {c : Char} (h : a ++ (x ++ b) = d ++ c :: r)
    (hlow : byteLength a ≤ byteLength d) (hhigh : byteLength d < byteLength a + byteLength x) :
    c ∈ x := by
  obtain ⟨e, rfl, he⟩ := exists_append_of_le h hlow
  rw [byteLength_append] at hhigh
  obtain ⟨f, rfl, hf⟩ := exists_append_of_le he.symm (by omega)
  cases f with
  | nil => simp at hhigh
  | cons c' f =>
    obtain ⟨rfl, -⟩ := List.cons.inj hf
    simp

/-- The end of a text that has no line break, behind a line break or the whole text. -/
theorem exists_last_line (u : List Char) :
    ∃ a l, u = a ++ l ∧ (∀ c ∈ l, isBreak c = false) ∧ ∀ c ∈ a.getLast?, isBreak c = true := by
  induction u using List.reverseRecOn with
  | nil => exact ⟨[], [], rfl, by simp, by simp⟩
  | append_singleton u c ih =>
    by_cases hc : isBreak c = true
    · exact ⟨u ++ [c], [], by simp, by simp, by simpa using hc⟩
    · obtain ⟨a, l, rfl, hl, ha⟩ := ih
      refine ⟨a, l ++ [c], by simp, ?_, ha⟩
      intro d hd
      rcases List.mem_append.1 hd with hd | hd
      · exact hl d hd
      · rw [List.mem_singleton.1 hd]
        simpa using hc

theorem lineEndFrom_of_le {target i : Nat} (h : target ≤ i) (cs : List Char) :
    lineEndFrom target i cs = i + byteLength (cs.takeWhile (!isBreak ·)) := by
  induction cs generalizing i with
  | nil => rfl
  | cons c cs ih =>
    rw [lineEndFrom]
    by_cases hc : isBreak c = true
    · simp [hc, h]
    · rw [if_neg (by simp [hc]), ih (by omega), List.takeWhile_cons, if_pos (by simp [hc]),
        byteLength_cons]
      omega

theorem lineEndFrom_append (i : Nat) (a b : List Char) :
    lineEndFrom (i + byteLength a) i (a ++ b)
      = i + byteLength a + byteLength (b.takeWhile (!isBreak ·)) := by
  induction a generalizing i with
  | nil => exact lineEndFrom_of_le (Nat.le_refl i) b
  | cons c a ih =>
    have := c.utf8Size_pos
    rw [List.cons_append, lineEndFrom, byteLength_cons, if_neg (by simp; omega), ← Nat.add_assoc,
      ih]

/-- The text around an offset that cuts no line break: lines before, the line on both sides of the
offset, and the rest with its terminator. -/
theorem exists_line (h : s.Boundary o) (hcut : ¬ s.CutsBreak o) :
    ∃ a l m b, s.chars = a ++ (l ++ (m ++ b)) ∧ o = byteLength a + byteLength l ∧
      (∀ c ∈ l ++ m, isBreak c = false) ∧ (∀ c ∈ a.getLast?, isBreak c = true) ∧
      (∀ c ∈ b.head?, isBreak c = true) ∧
      s.lineStart o = byteLength a ∧ s.lineEnd o = o + byteLength m := by
  obtain ⟨v, hv⟩ := h
  obtain ⟨u, hu, rfl⟩ := rest?_eq_some_iff.1 hv
  obtain ⟨a, l, rfl, hl, ha⟩ := exists_last_line u
  have hcs : s.chars = a ++ (l ++ v) := by rw [hu, List.append_assoc]
  have hsum : byteLength (a ++ l) = byteLength a + byteLength l := byteLength_append a l
  refine ⟨a, l, v.takeWhile (!isBreak ·), v.dropWhile (!isBreak ·), ?_, hsum, ?_, ha, ?_, ?_, ?_⟩
  · rw [hcs, List.takeWhile_append_dropWhile]
  · intro c hc
    rcases List.mem_append.1 hc with hc | hc
    · exact hl c hc
    · simpa using List.mem_takeWhile_imp hc
  · intro c hc
    have := List.head?_dropWhile_not (p := (!isBreak ·)) v
    rw [hc] at this
    simpa using this
  · apply Nat.le_antisymm
    · -- A later start would have its terminator in the line.
      have hmem := List.mem_filter.1 (lineStart_mem (s := s) (byteLength (a ++ l)))
      have hle := lineStart_le (s := s) (byteLength (a ++ l))
      rcases mem_lineStarts_iff.1 hmem.1 with h0 | hstop
      · omega
      · obtain ⟨a', b', hcs', hend, hstart⟩ := exists_terminator_iff.1 hstop
        obtain ⟨c, hlast, hbreak⟩ := isBreak_of_endsLine hend
        obtain ⟨d, rfl⟩ := List.getLast?_eq_some_iff.1 hlast
        have hsize : byteLength (d ++ [c]) = byteLength d + 1 := by
          rw [byteLength_append, byteLength_cons, byteLength_nil, utf8Size_of_break hbreak]
        rw [hcs, List.append_assoc] at hcs'
        by_contra hlt
        have hin : c ∈ l := mem_of_append_eq hcs' (by omega) (by omega)
        rw [hl c hin] at hbreak
        cases hbreak
    · apply le_lineStart _ (by omega)
      rw [mem_lineStarts_iff, exists_terminator_iff]
      cases hlast : a.getLast? with
      | none =>
        obtain rfl := List.getLast?_eq_none_iff.1 hlast
        exact .inl rfl
      | some c =>
        refine .inr ⟨a, l ++ v, hcs, ?_, rfl⟩
        rcases Scan.break_cases (ha c hlast) with rfl | rfl
        · exact .inl hlast
        · refine .inr ⟨hlast, ?_⟩
          intro hhead
          cases l with
          | nil =>
            obtain ⟨d, rfl⟩ := List.getLast?_eq_some_iff.1 hlast
            obtain ⟨b, rfl⟩ := List.head?_eq_some_iff.1 hhead
            exact hcut ⟨d, b, by simp [hcs], by simp only [byteLength_append]; rfl⟩
          | cons c l =>
            obtain rfl : c = '\n' := by simpa using hhead
            cases hl _ List.mem_cons_self
  · rw [lineEnd, hu, ← Nat.zero_add (byteLength (a ++ l)), lineEndFrom_append]

/-- A character that ends lines stands at every byte of a terminator. -/
theorem Terminator.exists_break {x : Span} (h : s.Terminator x) (hlow : x.start ≤ n)
    (hhigh : n < x.stop) :
    ∃ d c r, s.chars = d ++ c :: r ∧ n = byteLength d ∧ isBreak c = true := by
  obtain ⟨a, w, r, hcs, hw, -, rfl⟩ := h
  have h1 : '\r'.utf8Size = 1 := rfl
  have h2 : '\n'.utf8Size = 1 := rfl
  simp only at hlow hhigh
  cases hw with
  | lf =>
    simp only [byteLength_cons, byteLength_nil, h2] at hhigh
    exact ⟨a, '\n', r, hcs, by omega, rfl⟩
  | cr =>
    simp only [byteLength_cons, byteLength_nil, h1] at hhigh
    exact ⟨a, '\r', r, hcs, by omega, rfl⟩
  | crlf =>
    simp only [byteLength_cons, byteLength_nil, h1, h2] at hhigh
    by_cases hn : n = byteLength a
    · exact ⟨a, '\r', '\n' :: r, hcs, hn, rfl⟩
    · refine ⟨a ++ ['\r'], '\n', r, by simp [hcs], ?_, rfl⟩
      simp only [byteLength_append, byteLength_cons, byteLength_nil, h1]
      omega

/-- Only a `\r\n` has an offset between its ends. -/
theorem Terminator.cutsBreak {x : Span} (h : s.Terminator x) (hlow : x.start < o)
    (hhigh : o < x.stop) : s.CutsBreak o := by
  obtain ⟨a, w, r, hcs, hw, -, rfl⟩ := h
  have h1 : '\r'.utf8Size = 1 := rfl
  have h2 : '\n'.utf8Size = 1 := rfl
  simp only at hlow hhigh
  cases hw with
  | lf =>
    simp only [byteLength_cons, byteLength_nil, h2] at hhigh
    omega
  | cr =>
    simp only [byteLength_cons, byteLength_nil, h1] at hhigh
    omega
  | crlf =>
    simp only [byteLength_cons, byteLength_nil, h1, h2] at hhigh
    exact ⟨a, r, hcs, by omega⟩

def Unbroken (s : Source) (x : Span) : Prop :=
  ∀ t, s.Terminator t → t.stop ≤ x.start ∨ x.stop ≤ t.start

structure LineOf (s : Source) (o : Nat) (x : Span) : Prop where
  start_le : x.start ≤ o
  le_stop : o ≤ x.stop
  stop_le_size : x.stop ≤ s.size
  unbroken : s.Unbroken x
  longest : ∀ y : Span, y.start ≤ o → o ≤ y.stop → y.stop ≤ s.size → s.Unbroken y →
    x.start ≤ y.start ∧ y.stop ≤ x.stop

theorem unbroken_of_line {x : List Char} (hcs : s.chars = a ++ (x ++ b))
    (hx : ∀ c ∈ x, isBreak c = false) (hlow : byteLength a ≤ o)
    (hhigh : o ≤ byteLength a + byteLength x) (hcut : ¬ s.CutsBreak o) :
    s.Unbroken ⟨byteLength a, byteLength a + byteLength x⟩ := by
  intro t ht
  by_contra hnot
  simp only [not_or, not_le] at hnot
  have hlt := ht.start_lt_stop
  by_cases hshare : max t.start (byteLength a) < byteLength a + byteLength x
  · -- The first byte that the terminator and the line share.
    obtain ⟨d, c, r, hcs', hd, hbreak⟩ := ht.exists_break (n := max t.start (byteLength a))
      (by omega) (by omega)
    have hin : c ∈ x := mem_of_append_eq (hcs.symm.trans hcs') (by omega) (by omega)
    rw [hx c hin] at hbreak
    cases hbreak
  · exact hcut (ht.cutsBreak (by omega) (by omega))

/-- A terminator starts where the text of a line ends, unless the text ends there too. -/
theorem exists_terminator_of_line {l m : List Char} (hcs : s.chars = a ++ (l ++ (m ++ b)))
    (hline : ∀ c ∈ l ++ m, isBreak c = false) (hb : ∀ c ∈ b.head?, isBreak c = true)
    (hcut : ¬ s.CutsBreak (byteLength a + byteLength l)) (hne : b ≠ []) :
    ∃ t, s.Terminator t ∧ t.start = byteLength a + byteLength (l ++ m) := by
  obtain ⟨c, b, rfl⟩ := List.exists_cons_of_ne_nil hne
  obtain ⟨w, r, hw, -, hone⟩ := oneBreak_of_break (t := b) (hb c rfl)
  refine ⟨_, ⟨a ++ (l ++ m), w, r, by simp [hcs, hw], hone, ?_, rfl⟩, by simp⟩
  rintro rfl hlast
  cases hlm : (l ++ m).getLast? with
  | none =>
    obtain ⟨rfl, rfl⟩ := List.append_eq_nil_iff.1 (List.getLast?_eq_none_iff.1 hlm)
    rw [List.nil_append, List.append_nil] at hlast
    obtain ⟨d, rfl⟩ := List.getLast?_eq_some_iff.1 hlast
    refine hcut ⟨d, r, by simp [hcs, hw], ?_⟩
    simp only [byteLength_append, byteLength_nil]
    rfl
  | some e =>
    have hmem := List.mem_of_getLast? hlm
    rw [List.getLast?_append, hlm, Option.some_or] at hlast
    have := hline e hmem
    rw [Option.some.inj hlast] at this
    cases this

theorem lineOf (h : s.Boundary o) (hcut : ¬ s.CutsBreak o) :
    s.LineOf o ⟨s.lineStart o, s.lineEnd o⟩ := by
  obtain ⟨a, l, m, b, hcs, rfl, hline, -, hb, hstart, hend⟩ := exists_line h hcut
  have hspan : s.lineEnd (byteLength a + byteLength l) = byteLength a + byteLength (l ++ m) := by
    rw [hend, byteLength_append]
    omega
  have hsize : s.size = byteLength a + byteLength (l ++ m) + byteLength b := by
    rw [s.size_eq, hcs]
    simp only [byteLength_append]
    omega
  constructor
  · exact lineStart_le _
  · show _ ≤ s.lineEnd _
    omega
  · show s.lineEnd _ ≤ s.size
    omega
  · rw [hstart, hspan]
    exact unbroken_of_line (b := b) (by rw [hcs, List.append_assoc]) hline (Nat.le_add_right _ _)
      (by rw [byteLength_append]; omega) hcut
  · intro y hy hy' hysize hfree
    constructor
    · show s.lineStart _ ≤ y.start
      have hmem := List.mem_filter.1 (lineStart_mem (s := s) (byteLength a + byteLength l))
      rcases mem_lineStarts_iff.1 hmem.1 with h0 | ⟨t, ht, hstop⟩
      · omega
      · have := ht.start_lt_stop
        rcases hfree t ht with hbefore | hbehind <;> omega
    · show y.stop ≤ s.lineEnd _
      by_contra hlong
      have hne : b ≠ [] := by
        rintro rfl
        simp at hsize
        omega
      obtain ⟨t, ht, ht'⟩ := exists_terminator_of_line hcs hline hb hcut hne
      have := ht.start_lt_stop
      rw [byteLength_append] at ht' hspan
      rcases hfree t ht with hbefore | hbehind <;> omega

theorem finite_terminators (s : Source) (o : Nat) : {x | s.Terminator x ∧ x.stop ≤ o}.Finite := by
  refine Set.Finite.of_finite_image (f := Span.stop) ((Set.finite_le_nat o).subset ?_)
    fun x hx y hy h => hx.1.eq_of_stop hy.1 h
  rintro _ ⟨x, ⟨-, hle⟩, rfl⟩
  exact hle

/-- Two offsets are on one line if no terminator ends behind the first and not behind the second. -/
theorem lineNumber_eq_iff {p : Nat} (h : o ≤ p) :
    s.lineNumber o = s.lineNumber p ↔ ¬ ∃ x, s.Terminator x ∧ o < x.stop ∧ x.stop ≤ p := by
  rw [lineNumber_eq_ncard, lineNumber_eq_ncard]
  constructor
  · rintro heq ⟨x, hx, hlow, hhigh⟩
    have hless : {x | s.Terminator x ∧ x.stop ≤ o} ⊂ {x | s.Terminator x ∧ x.stop ≤ p} := by
      have hsub : {x | s.Terminator x ∧ x.stop ≤ o} ⊆ {x | s.Terminator x ∧ x.stop ≤ p} :=
        fun y hy => ⟨hy.1, Nat.le_trans hy.2 h⟩
      rw [Set.ssubset_iff_of_subset hsub]
      exact ⟨x, ⟨hx, hhigh⟩, fun hx' => Nat.not_lt.2 hx'.2 hlow⟩
    have := Set.ncard_lt_ncard hless (s.finite_terminators p)
    omega
  · intro hnone
    congr 2
    ext x
    constructor
    · exact fun hx => ⟨hx.1, Nat.le_trans hx.2 h⟩
    · intro hx
      refine ⟨hx.1, ?_⟩
      by_contra hlt
      exact hnone ⟨x, hx.1, Nat.not_le.1 hlt, hx.2⟩

/-- The text of a line can be cut out, and it is the line that a place at the offset shows. -/
theorem exists_line_text (h : s.Boundary o) (hcut : ¬ s.CutsBreak o) :
    ∃ line, s.slice? ⟨s.lineStart o, s.lineEnd o⟩ = some line ∧
      (∀ c ∈ line, isBreak c = false) ∧
      ∀ r, ∃ place, s.place? r o = some place ∧ place.offset = o ∧ place.line = s.lineNumber o ∧
        place.lineText = String.ofList line := by
  obtain ⟨a, l, m, b, hcs, ho, hline, -, -, hstart, hend⟩ := exists_line h hcut
  have hrest : s.rest? (s.lineStart o) = some (l ++ m ++ b) :=
    rest?_eq_some_iff.2 ⟨a, by rw [hcs, List.append_assoc], hstart⟩
  have hslice : s.slice? ⟨s.lineStart o, s.lineEnd o⟩ = some (l ++ m) :=
    slice?_eq_some hrest (by rw [byteLength_append]; omega)
  have hbefore : s.slice? ⟨s.lineStart o, o⟩ = some l :=
    slice?_eq_some (by rwa [List.append_assoc] at hrest) (by omega)
  have hmin : min o s.size = o := Nat.min_eq_left (le_size h)
  refine ⟨l ++ m, hslice, hline, fun r => ?_⟩
  simp only [place?, hmin, hbefore, hslice]
  exact ⟨_, rfl, rfl, rfl, rfl⟩

/-- The table of line starts is exact. It is what a loop over the bytes of the text finds, and a
search that halves it finds the line of an offset. The number of a line is one more than the
terminators that end at or before the offset, so it is the same for two offsets if none ends
between them. The line that is shown for an offset is the longest stretch without a terminator
around it. -/
theorem lines_exact (s : Source) :
    0 :: startsFrom 0 (utf8 s.chars) = s.lineStarts ∧
    (∀ o, s.lineIndex o + 1 = s.lineNumber o ∧
      s.lineStarts[s.lineIndex o]? = some (s.lineStart o)) ∧
    (∀ o ≤ s.size, s.lineNumber o = 1 + {x | s.Terminator x ∧ x.stop ≤ o}.ncard) ∧
    (∀ o, s.Boundary o → ¬ s.CutsBreak o →
      s.LineOf o ⟨s.lineStart o, s.lineEnd o⟩ ∧
      ∃ line, s.slice? ⟨s.lineStart o, s.lineEnd o⟩ = some line ∧
        (∀ c ∈ line, isBreak c = false) ∧
        ∀ r, ∃ place, s.place? r o = some place ∧ place.offset = o ∧ place.line = s.lineNumber o ∧
          place.lineText = String.ofList line) ∧
    ∀ o₁ o₂, o₁ ≤ o₂ → (s.lineNumber o₁ = s.lineNumber o₂ ↔
      ¬ ∃ x, s.Terminator x ∧ o₁ < x.stop ∧ x.stop ≤ o₂) := by
  refine ⟨?_, s.lineIndex_spec, fun o _ => s.lineNumber_eq_ncard o, ?_, ?_⟩
  · rw [startsFrom_utf8, s.lineStarts_eq, Text.lineStarts]
  · intro o h hcut
    exact ⟨lineOf h hcut, exists_line_text h hcut⟩
  · intro o₁ o₂ h
    exact lineNumber_eq_iff h

def brokenText : Source := ofString "A" "a\r\né\r\r\nb\nc"

theorem boundary_broken : brokenText.Boundary 5 := ⟨"\r\r\nb\nc".toList, by decide⟩

theorem not_cutsBreak_broken : ¬ brokenText.CutsBreak 5 := by
  rintro ⟨a, b, hcs, ho⟩
  have hrest : brokenText.rest? 4 = some ('\r' :: '\n' :: b) :=
    rest?_eq_some_iff.2 ⟨a, hcs, by omega⟩
  rw [show brokenText.rest? 4 = none by decide] at hrest
  cases hrest

theorem lines_exact_broken :
    brokenText.Boundary 5 ∧ ¬ brokenText.CutsBreak 5 ∧ brokenText.LineOf 5 ⟨3, 5⟩ ∧
      (∃ place, brokenText.place? (Ruler.standard 4) 5 = some place ∧ place.line = 2 ∧
        place.lineText = "é") ∧
      5 ≤ brokenText.size ∧ {x | brokenText.Terminator x ∧ x.stop ≤ 5}.ncard = 1 ∧
      brokenText.lineNumber 6 ≠ brokenText.lineNumber 8 ∧
      ∃ x, brokenText.Terminator x ∧ 6 < x.stop ∧ x.stop ≤ 8 := by
  obtain ⟨-, -, hcount, hline, hsame⟩ := lines_exact brokenText
  have hsize : 5 ≤ brokenText.size := by decide
  have hnumber := hcount 5 hsize
  rw [show brokenText.lineNumber 5 = 2 by decide] at hnumber
  obtain ⟨hspan, line, hslice, -, hplace⟩ := hline 5 boundary_broken not_cutsBreak_broken
  rw [show brokenText.lineStart 5 = 3 by decide, show brokenText.lineEnd 5 = 5 by decide]
    at hspan hslice
  rw [show brokenText.slice? ⟨3, 5⟩ = some ['é'] by decide] at hslice
  obtain ⟨place, hplace, -, hnumber', htext⟩ := hplace (Ruler.standard 4)
  have hne : brokenText.lineNumber 6 ≠ brokenText.lineNumber 8 := by decide
  refine ⟨boundary_broken, not_cutsBreak_broken, hspan,
    ⟨place, hplace, hnumber'.trans (by decide), ?_⟩, hsize, by omega, hne, ?_⟩
  · rw [htext, ← Option.some.inj hslice]
  · by_contra hnone
    exact hne ((hsame 6 8 (by decide)).2 hnone)

end Source

end Transcribe.Text
