/-
  Transcribe.Proofs.Bytes — the pass that finds comments, byte by byte.

  The table of comments is found in a text of characters. The same pass can run over the bytes of
  the text, with an index that also comes to rest inside characters: a backslash takes one byte
  along, and where nothing opens it goes on by one. It looks into the text itself only for the end
  of a block comment, and then it cuts the text. Every byte of a character that is not ASCII is
  above all bytes the pass asks for, so it never cuts a character and finds the same table.

  The pass over bytes is made of rounds (`round?`): at a quote a round reads the literal, at a slash
  it looks for a comment, elsewhere it takes one byte. Whatever would cut a character is `none`, so
  that a pass comes to something says that nothing is cut. `Round` tells in characters what a round
  has read and found, and `Passes` is the invariant between two rounds.
  - `pass?_eq`: the pass over the bytes is never stuck inside a character, finds the table, and is
    in code at every character it comes to.
  - `walk?_eq`: nor is a walk over space and comments.
  - `lineBreak?_eq`: nor is the search for the line break a text uses.
-/

import Transcribe.Proofs.Lead
import Transcribe.Proofs.Token

namespace Transcribe.Text

variable {c : Char} {b : UInt8} {cs a r : List Char}

/-! ## Bytes of characters -/

def utf8 (cs : List Char) : List UInt8 := cs.flatMap String.utf8EncodeChar

def ascii (c : Char) : UInt8 := UInt8.ofNat c.toNat

@[simp] theorem utf8_nil : utf8 [] = [] := rfl

@[simp] theorem utf8_cons (c : Char) (cs : List Char) :
    utf8 (c :: cs) = String.utf8EncodeChar c ++ utf8 cs := rfl

@[simp] theorem utf8_append (a b : List Char) : utf8 (a ++ b) = utf8 a ++ utf8 b :=
  List.flatMap_append

@[simp] theorem length_utf8 (cs : List Char) : (utf8 cs).length = byteLength cs := by
  induction cs with
  | nil => rfl
  | cons c cs ih => simp [ih]

theorem drop_utf8 (a b : List Char) : (utf8 (a ++ b)).drop (byteLength a) = utf8 b := by
  rw [utf8_append, ← length_utf8, List.drop_left]

theorem encode_of_lt (h : c.toNat < 128) : String.utf8EncodeChar c = [ascii c] := by
  have hle : c.val.toNat ≤ 127 := by
    have : c.val.toNat = c.toNat := rfl
    omega
  rw [String.utf8EncodeChar]
  exact if_pos hle

theorem utf8Size_of_lt (h : c.toNat < 128) : c.utf8Size = 1 := by
  rw [← String.length_utf8EncodeChar, encode_of_lt h, List.length_singleton]

theorem exists_encode (c : Char) : ∃ b hs, String.utf8EncodeChar c = b :: hs := by
  cases h : String.utf8EncodeChar c with
  | nil =>
    have := c.utf8Size_pos
    rw [← String.length_utf8EncodeChar, h] at this
    cases this
  | cons b hs => exact ⟨b, hs, rfl⟩

theorem high_encode (h : ¬ c.toNat < 128) :
    ∀ b ∈ String.utf8EncodeChar c, 128 ≤ b.toNat := by
  intro b hb
  have hle : ¬ c.val.toNat ≤ 127 := by
    have : c.val.toNat = c.toNat := rfl
    omega
  simp only [String.utf8EncodeChar, hle, if_false] at hb
  split at hb
  · simp only [List.mem_cons, List.not_mem_nil, or_false] at hb
    rcases hb with rfl | rfl <;> simp <;> omega
  · split at hb
    · simp only [List.mem_cons, List.not_mem_nil, or_false] at hb
      rcases hb with rfl | rfl | rfl <;> simp <;> omega
    · simp only [List.mem_cons, List.not_mem_nil, or_false] at hb
      rcases hb with rfl | rfl | rfl | rfl <;> simp <;> omega

theorem ascii_inj {d : Char} (hc : c.toNat < 128) (hd : d.toNat < 128) :
    ascii c = ascii d ↔ c = d := by
  refine ⟨fun h => ?_, fun h => h ▸ rfl⟩
  have hnat : (ascii c).toNat = (ascii d).toNat := by rw [h]
  simp only [ascii, UInt8.toNat_ofNat'] at hnat
  have hval : c.toNat = d.toNat := by omega
  exact Char.ext (UInt32.toNat_inj.1 hval)

theorem ne_ascii_of_high (hb : 128 ≤ b.toNat) (hc : c.toNat < 128) :
    b ≠ ascii c := by
  rintro rfl
  simp only [ascii, UInt8.toNat_ofNat'] at hb
  omega

def isBreakByte (b : UInt8) : Bool := b == ascii '\n' || b == ascii '\r'

def isBlankByte (b : UInt8) : Bool := b == ascii ' ' || b == ascii '\t' || b == ascii '\x0c'

theorem isBreakByte_ascii (h : c.toNat < 128) : isBreakByte (ascii c) = isBreak c := by
  rw [Bool.eq_iff_iff]
  simp [isBreakByte, isBreak, ascii_inj h]

theorem isBlankByte_ascii (h : c.toNat < 128) : isBlankByte (ascii c) = isBlank c := by
  rw [Bool.eq_iff_iff]
  simp [isBlankByte, isBlank, ascii_inj h]

theorem isBreakByte_of_high (h : 128 ≤ b.toNat) : isBreakByte b = false := by
  simp [isBreakByte, ne_ascii_of_high h]

theorem isBlankByte_of_high (h : 128 ≤ b.toNat) : isBlankByte b = false := by
  simp [isBlankByte, ne_ascii_of_high h]

theorem lt_of_isBreak (h : isBreak c = true) : c.toNat < 128 := by
  simp only [isBreak, Bool.or_eq_true, beq_iff_eq] at h
  rcases h with rfl | rfl <;> decide

theorem lt_of_isBlank (h : isBlank c = true) : c.toNat < 128 := by
  simp only [isBlank, Bool.or_eq_true, beq_iff_eq] at h
  rcases h with (rfl | rfl) | rfl <;> decide

/-! ## Comments -/

def lineBytes : List UInt8 → Nat
  | [] => 0
  | b :: bs => if isBreakByte b then 0 else 1 + lineBytes bs

def closing? : List Char → Option Nat
  | '*' :: '/' :: _ => some 0
  | c :: cs => (closing? cs).map (c.utf8Size + ·)
  | [] => none

/-- Where a comment that opens at byte `i` of `cs` ends, and `i` itself where none opens; `bs` are
the bytes from there. For the end of a block comment the text is cut behind its opening. -/
def commentStop? (cs : List Char) (i : Nat) : List UInt8 → Option Nat
  | b :: d :: bs =>
    if b == ascii '/' && d == ascii '/' then some (i + 2 + lineBytes bs)
    else if b == ascii '/' && d == ascii '*' then
      (dropBytes? (i + 2) cs).map fun r => ((closing? r).map (i + 2 + · + 2)).getD (byteLength cs)
    else some i
  | _ => some i

theorem lineBytes_high {hs : List UInt8} (h : ∀ b ∈ hs, 128 ≤ b.toNat) (bs : List UInt8) :
    lineBytes (hs ++ bs) = hs.length + lineBytes bs := by
  induction hs with
  | nil => simp
  | cons b hs ih =>
    simp only [List.forall_mem_cons] at h
    rw [List.cons_append, lineBytes, isBreakByte_of_high h.1, ih h.2, List.length_cons]
    simp only [Bool.false_eq_true, if_false]
    omega

theorem lineBytes_utf8 (cs : List Char) :
    lineBytes (utf8 cs) + byteLength (afterLine cs) = byteLength cs := by
  induction cs with
  | nil => rfl
  | cons c cs ih =>
    rw [afterLine, utf8_cons]
    by_cases hlow : c.toNat < 128
    · rw [encode_of_lt hlow, List.singleton_append, lineBytes, isBreakByte_ascii hlow]
      split
      · simp
      · rw [byteLength_cons, utf8Size_of_lt hlow]
        omega
    · have hb : isBreak c = false := by
        rw [Bool.eq_false_iff]
        exact fun hb => hlow (lt_of_isBreak hb)
      rw [lineBytes_high (high_encode hlow), String.length_utf8EncodeChar, hb]
      simp only [Bool.false_eq_true, if_false, byteLength_cons]
      omega

theorem closing?_eq (cs : List Char) :
    ((closing? cs).map (· + 2)).getD (byteLength cs) + byteLength (afterBlock cs)
      = byteLength cs := by
  have h1 : '*'.utf8Size = 1 := rfl
  have h2 : '/'.utf8Size = 1 := rfl
  fun_induction afterBlock cs with
  | case1 cs =>
    simp only [closing?, Option.map_some, Option.getD_some, byteLength_cons]
    omega
  | case2 c cs hc ih =>
    rw [closing?]
    · cases hn : closing? cs with
      | none =>
        simp only [hn, Option.map_none, Option.getD_none, byteLength_cons] at ih ⊢
        omega
      | some n =>
        simp only [hn, Option.map_some, Option.getD_some, byteLength_cons] at ih ⊢
        omega
    · exact hc
  | case3 => rfl

def afterComment? : List Char → Option (List Char)
  | '/' :: '/' :: cs => some (afterLine cs)
  | '/' :: '*' :: cs => some (afterBlock cs)
  | _ => none

theorem skip_of_afterComment? {cs' : List Char} (h : afterComment? cs = some cs') :
    Skip cs cs' := by
  unfold afterComment? at h
  split at h
  · obtain rfl := Option.some.inj h
    exact .line _
  · obtain rfl := Option.some.inj h
    exact .block _
  · cases h

theorem eq_slash_of_afterComment? {cs' : List Char} (h : afterComment? (c :: cs) = some cs') :
    c = '/' := by
  unfold afterComment? at h
  split at h
  · rename_i heq
    exact (List.cons.inj heq).1
  · rename_i heq
    exact (List.cons.inj heq).1
  · cases h

theorem afterComment?_high (h : ¬ c.toNat < 128) (r : List Char) :
    afterComment? (c :: r) = none := by
  cases hafter : afterComment? (c :: r) with
  | none => rfl
  | some t =>
    rw [eq_slash_of_afterComment? hafter] at h
    exact absurd (by decide) h

/-- An ASCII byte at the head of a text is its first character. -/
theorem utf8_eq_cons {x : Char} {bs : List UInt8} (hx : x.toNat < 128) (h : utf8 cs = ascii x :: bs) :
    ∃ r, cs = x :: r ∧ utf8 r = bs := by
  cases cs with
  | nil => cases h
  | cons c cs =>
    rw [utf8_cons] at h
    by_cases hlow : c.toNat < 128
    · rw [encode_of_lt hlow, List.singleton_append] at h
      obtain ⟨hc, hbs⟩ := List.cons.inj h
      exact ⟨cs, by rw [(ascii_inj hlow hx).1 hc], hbs⟩
    · obtain ⟨b, hs, he⟩ := exists_encode c
      rw [he] at h
      have hb := high_encode hlow b (by rw [he]; exact List.mem_cons_self)
      exact absurd (List.cons.inj h).1 (ne_ascii_of_high hb hx)

/-- Cutting the text for a comment never cuts a character. -/
theorem commentStop?_eq (a r : List Char) :
    commentStop? (a ++ r) (byteLength a) (utf8 r)
      = some (byteLength a + (byteLength r - byteLength ((afterComment? r).getD r))) := by
  have hslash : '/'.utf8Size = 1 := rfl
  have hstar : '*'.utf8Size = 1 := rfl
  fun_cases afterComment? r with
  | case1 r =>
    have hlen := lineBytes_utf8 r
    have hbytes : utf8 ('/' :: '/' :: r) = ascii '/' :: ascii '/' :: utf8 r := rfl
    rw [hbytes, commentStop?, if_pos (by simp), Option.getD_some, byteLength_cons, byteLength_cons,
      hslash]
    congr 1
    omega
  | case2 r =>
    have hlen := closing?_eq r
    have hbytes : utf8 ('/' :: '*' :: r) = ascii '/' :: ascii '*' :: utf8 r := rfl
    have hcut : dropBytes? (byteLength a + 2) (a ++ '/' :: '*' :: r) = some r := by
      have := dropBytes?_byteLength_append (a ++ ['/', '*']) r
      simpa [hslash, hstar] using this
    rw [hbytes, commentStop?, if_neg (by decide), if_pos (by simp), hcut, Option.getD_some]
    cases hn : closing? r with
    | none =>
      simp only [hn, Option.map_none, Option.getD_none, Option.map_some, byteLength_append,
        byteLength_cons] at hlen ⊢
      congr 1
      omega
    | some n =>
      simp only [hn, Option.map_some, Option.getD_some, byteLength_cons] at hlen ⊢
      congr 1
      omega
  | case3 _ h₁ h₂ =>
    simp only [Option.getD_none, Nat.sub_self, Nat.add_zero]
    unfold commentStop?
    split
    · rename_i b d bs hbytes
      split
      · rename_i hb
        simp only [Bool.and_eq_true, beq_iff_eq] at hb
        rw [hb.1, hb.2] at hbytes
        obtain ⟨t, rfl, ht⟩ := utf8_eq_cons (by decide) hbytes
        obtain ⟨t, rfl, -⟩ := utf8_eq_cons (by decide) ht
        exact absurd rfl (h₁ t)
      · split
        · rename_i hb
          simp only [Bool.and_eq_true, beq_iff_eq] at hb
          rw [hb.1, hb.2] at hbytes
          obtain ⟨t, rfl, ht⟩ := utf8_eq_cons (by decide) hbytes
          obtain ⟨t, rfl, -⟩ := utf8_eq_cons (by decide) ht
          exact absurd rfl (h₂ t)
        · rfl
    · rfl

theorem commentStop?_high (h : 128 ≤ b.toNat) (cs : List Char) (i : Nat) (bs : List UInt8) :
    commentStop? cs i (b :: bs) = some i := by
  cases bs with
  | nil => rfl
  | cons d bs => simp [commentStop?, ne_ascii_of_high h]

/-! ## Literals -/

/-- Bytes of what the pass reads as the rest of a literal, behind its opening quote. A backslash
takes the next byte along, whatever it is a byte of. -/
def literalBytes (quote : UInt8) : List UInt8 → Nat
  | [] => 0
  | b :: bs =>
    if b == ascii '\\' then
      match bs with
      | [] => 2
      | _ :: bs => 2 + literalBytes quote bs
    else if b == quote then 1
    else if isBreakByte b then 0
    else 1 + literalBytes quote bs

theorem literalBytes_cons {quote : UInt8} (h : b ≠ ascii '\\') (bs : List UInt8) :
    literalBytes quote (b :: bs)
      = if b == quote then 1 else if isBreakByte b then 0 else 1 + literalBytes quote bs := by
  rw [literalBytes.eq_def]
  exact if_neg (by simpa using h)

theorem literalBytes_high {q : Char} (hq : q.toNat < 128) {hs : List UInt8}
    (h : ∀ b ∈ hs, 128 ≤ b.toNat) (bs : List UInt8) :
    literalBytes (ascii q) (hs ++ bs) = hs.length + literalBytes (ascii q) bs := by
  induction hs with
  | nil => simp
  | cons b hs ih =>
    simp only [List.forall_mem_cons] at h
    have hquote := ne_ascii_of_high h.1 hq
    rw [List.cons_append, literalBytes_cons (ne_ascii_of_high h.1 (by decide)),
      if_neg (by simpa using hquote), if_neg (by simp [isBreakByte_of_high h.1]), ih h.2,
      List.length_cons]
    omega

theorem literalBytes_escape {q : Char} (hq : q.toNat < 128) (c : Char) (cs : List Char) :
    literalBytes (ascii q) (utf8 ('\\' :: c :: cs))
      = 1 + c.utf8Size + literalBytes (ascii q) (utf8 cs) := by
  obtain ⟨b, hs, he⟩ := exists_encode c
  have htail : ∀ b ∈ hs, 128 ≤ b.toNat := by
    by_cases hlow : c.toNat < 128
    · rw [encode_of_lt hlow] at he
      obtain rfl := (List.cons.inj he).2
      simp
    · exact (List.forall_mem_cons.1 (he ▸ high_encode hlow)).2
  have htake : literalBytes (ascii q) (utf8 ('\\' :: c :: cs))
      = 2 + literalBytes (ascii q) (hs ++ utf8 cs) := by
    rw [utf8_cons, utf8_cons, he]
    rfl
  rw [htake, literalBytes_high hq htail, ← String.length_utf8EncodeChar, he, List.length_cons]
  omega

/-- The loop over the bytes of a literal ends where the pass over its characters does, or behind a
backslash that ends the text. -/
theorem literalBytes_utf8 {q : Char} (hq : q.toNat < 128) (hesc : q ≠ '\\') (cs : List Char) :
    ∃ w t, cs = w ++ t ∧ literalLength q cs = byteLength w ∧
      (literalBytes (ascii q) (utf8 cs) = byteLength w ∨
        t = [] ∧ byteLength w ≤ literalBytes (ascii q) (utf8 cs)) := by
  have hone : '\\'.utf8Size = 1 := rfl
  fun_induction literalLength q cs with
  | case1 c cs ih =>
    obtain ⟨w, t, rfl, hlen, hbytes⟩ := ih
    refine ⟨'\\' :: c :: w, t, rfl, ?_, ?_⟩
    · rw [hlen, byteLength_cons, byteLength_cons, hone]
      omega
    · rw [literalBytes_escape hq, byteLength_cons, byteLength_cons, hone]
      exact hbytes.imp (by omega) (And.imp_right (by omega))
  | case2 c cs hne hc =>
    obtain rfl : c = q := by simpa using hc
    refine ⟨[c], cs, rfl, by simp, .inl ?_⟩
    have hslash : ascii c ≠ ascii '\\' := fun h => hesc ((ascii_inj hq (by decide)).1 h)
    rw [utf8_cons, encode_of_lt hq, List.singleton_append, literalBytes_cons hslash,
      if_pos (by simp), byteLength_cons, utf8Size_of_lt hq]
    rfl
  | case3 c cs hne hc hb =>
    have hlow := lt_of_isBreak hb
    refine ⟨[], c :: cs, rfl, rfl, .inl ?_⟩
    have hslash : ascii c ≠ ascii '\\' := by
      intro h
      obtain rfl := (ascii_inj hlow (by decide)).1 h
      cases hb
    have hquote : ascii c ≠ ascii q := fun h => hc (by simpa using (ascii_inj hlow hq).1 h)
    rw [utf8_cons, encode_of_lt hlow, List.singleton_append, literalBytes_cons hslash,
      if_neg (by simpa using hquote), if_pos (by rwa [isBreakByte_ascii hlow]), byteLength_nil]
  | case4 c cs hne hc hb ih =>
    obtain ⟨w, t, rfl, hlen, hbytes⟩ := ih
    by_cases hc' : c = '\\'
    · -- a backslash that nothing follows
      subst hc'
      cases hw : w ++ t with
      | cons d ds => exact (hne d ds rfl hw).elim
      | nil =>
        obtain ⟨rfl, rfl⟩ := List.append_eq_nil_iff.1 hw
        exact ⟨['\\'], [], rfl, rfl, .inr ⟨rfl, Nat.le_succ 1⟩⟩
    · refine ⟨c :: w, t, rfl, by rw [hlen, byteLength_cons], ?_⟩
      have hstep : literalBytes (ascii q) (utf8 (c :: (w ++ t)))
          = c.utf8Size + literalBytes (ascii q) (utf8 (w ++ t)) := by
        rw [utf8_cons]
        by_cases hlow : c.toNat < 128
        · have hslash : ascii c ≠ ascii '\\' := fun h => hc' ((ascii_inj hlow (by decide)).1 h)
          have hquote : ascii c ≠ ascii q := fun h => hc (by simpa using (ascii_inj hlow hq).1 h)
          rw [encode_of_lt hlow, List.singleton_append, literalBytes_cons hslash,
            if_neg (by simpa using hquote), if_neg (by rwa [isBreakByte_ascii hlow]),
            utf8Size_of_lt hlow]
        · rw [literalBytes_high hq (high_encode hlow), String.length_utf8EncodeChar]
      rw [hstep, byteLength_cons]
      exact hbytes.imp (by omega) (And.imp_right (by omega))
  | case5 => exact ⟨[], [], rfl, rfl, .inl rfl⟩

/-! ## The pass -/

structure Pass where
  visited : List Nat
  table : List Span

/-- One round of the pass at byte `i` of `cs`, where `b` stands before `bs`: how far behind `b` it
goes, and the comment there. -/
def round? (cs : List Char) (i : Nat) (b : UInt8) (bs : List UInt8) : Option (Nat × List Span) :=
  (commentStop? cs i (b :: bs)).map fun stop =>
    if i < stop then (stop - i - 1, [⟨i, stop⟩])
    else if b == ascii '\x22' || b == ascii '\x27' then (literalBytes b bs, [])
    else (0, [])

/-- The pass from byte `i` of `cs` on, where `bs` are the bytes from there; `none` where it cuts a
character. -/
def passFrom? (cs : List Char) (i : Nat) : List UInt8 → Option Pass
  | [] => some ⟨[i], []⟩
  | b :: bs =>
    match round? cs i b bs with
    | none => none
    | some (n, found) =>
      (passFrom? cs (i + 1 + n) (bs.drop n)).map fun p => ⟨i :: p.visited, found ++ p.table⟩
termination_by bs => bs.length
decreasing_by simp only [List.length_drop, List.length_cons]; omega

def pass? (cs : List Char) : Option Pass := passFrom? cs 0 (utf8 cs)

theorem round?_high (h : 128 ≤ b.toNat) (cs : List Char) (i : Nat) (bs : List UInt8) :
    round? cs i b bs = some (0, []) := by
  simp [round?, commentStop?_high h, ne_ascii_of_high h]

/-- Inside a character the pass goes on byte by byte. -/
theorem passFrom?_high {hs : List UInt8} (h : ∀ b ∈ hs, 128 ≤ b.toNat) (cs : List Char) (i : Nat)
    (bs : List UInt8) :
    passFrom? cs i (hs ++ bs) = (passFrom? cs (i + hs.length) bs).map fun p =>
      ⟨List.range' i hs.length ++ p.visited, p.table⟩ := by
  induction hs generalizing i with
  | nil => simp
  | cons b hs ih =>
    simp only [List.forall_mem_cons] at h
    rw [List.cons_append, passFrom?, round?_high h.1]
    simp only [Nat.add_zero, List.drop_zero, ih h.2, Option.map_map, List.length_cons,
      List.range'_succ, Nat.add_assoc, Nat.add_comm 1, List.nil_append]
    rfl

/-- No character starts inside another. -/
theorem dropBytes?_inside {p : Nat} (hlow : byteLength a < p)
    (hhigh : p < byteLength a + c.utf8Size) : dropBytes? p (a ++ c :: r) = none := by
  cases h : dropBytes? p (a ++ c :: r) with
  | none => rfl
  | some t =>
    obtain ⟨b, hb, rfl⟩ := eq_append_of_dropBytes? h
    rcases List.append_eq_append_iff.1 hb with ⟨w, rfl, hw⟩ | ⟨w, rfl, -⟩
    · rw [byteLength_append] at hlow hhigh
      obtain ⟨w', rfl, -⟩ := exists_cons_of_byteLength hw.symm (by omega)
      rw [byteLength_cons] at hhigh
      omega
    · rw [byteLength_append] at hlow
      omega

/-- What a round of the pass leads to from the place `o` before `cs`: it reads `w` and finds the
comments of `w`. Where nothing is left it may go on too far. -/
structure Round (o n : Nat) (found : List Span) (cs w t : List Char) : Prop where
  split : cs = w ++ t
  pos : w ≠ []
  goes : 1 + n = byteLength w ∨ t = [] ∧ byteLength w ≤ 1 + n
  passes : commentsFrom .code o cs = found ++ commentsFrom .code (o + byteLength w) t
  ends : ∀ y ∈ found, y.stop ≤ o + byteLength w

theorem commentsFrom_code_of_none (h : afterComment? (c :: r) = none) (o : Nat) :
    commentsFrom .code o (c :: r)
      = commentsFrom (if isQuote c then .literal c else .code) (o + c.utf8Size) r := by
  rw [commentsFrom]
  · rintro t rfl rfl
    cases h
  · rintro t rfl rfl
    cases h

theorem isQuote_iff_ascii (h : c.toNat < 128) :
    (ascii c == ascii '\x22' || ascii c == ascii '\x27') = isQuote c := by
  rw [Bool.eq_iff_iff]
  simp [isQuote, ascii_inj h]

theorem exists_round (a : List Char) (hlow : c.toNat < 128) (r : List Char) :
    ∃ n found w t, Round (byteLength a) n found (c :: r) w t ∧
      round? (a ++ c :: r) (byteLength a) (ascii c) (utf8 r) = some (n, found) := by
  have hone := utf8Size_of_lt hlow
  have hstop := commentStop?_eq a (c :: r)
  rw [utf8_cons, encode_of_lt hlow, List.singleton_append] at hstop
  cases hafter : afterComment? (c :: r) with
  | some t =>
    have hskip := skip_of_afterComment? hafter
    obtain ⟨w, xs, hw, hpass, hxs⟩ := commentsFrom_skip hskip (byteLength a)
    obtain ⟨v, hv, hsame⟩ := skip_suffix hskip
    have hne : w ≠ [] := by rwa [List.append_cancel_right (hw.symm.trans hsame)]
    have hpos := Grammar.byteLength_pos (by simpa using hne : w.isEmpty = false)
    obtain rfl : xs = [⟨byteLength a, byteLength a + byteLength w⟩] := by
      refine hxs.resolve_left ?_
      rintro ⟨⟨d, rfl, hd⟩, -⟩
      rw [← (List.cons.inj hw).1, eq_slash_of_afterComment? hafter] at hd
      cases hd
    refine ⟨byteLength w - 1, _, w, t, ⟨hw, hne, .inl (by omega), hpass, by simp⟩, ?_⟩
    have hlen : byteLength (c :: r) - byteLength t = byteLength w := by
      rw [hw, byteLength_append]
      omega
    rw [hafter, Option.getD_some, hlen] at hstop
    rw [round?, hstop, Option.map_some, if_pos (by omega), Nat.add_sub_cancel_left]
  | none =>
    rw [hafter, Option.getD_none, Nat.sub_self, Nat.add_zero] at hstop
    have hpass := commentsFrom_code_of_none hafter (byteLength a)
    rw [round?, hstop]
    simp only [Option.map_some, Nat.lt_irrefl, if_false, isQuote_iff_ascii hlow]
    by_cases hq : isQuote c = true
    · obtain ⟨w, t, rfl, hlen, hbytes⟩ := literalBytes_utf8 hlow (ne_backslash_of_isQuote hq) r
      refine ⟨literalBytes (ascii c) (utf8 (w ++ t)), [], c :: w, t,
        ⟨rfl, by simp, ?_, ?_, by simp⟩, by rw [if_pos hq]⟩
      · rw [byteLength_cons, hone]
        exact hbytes.imp (by omega) (And.imp_right (by omega))
      · rw [hpass, if_pos hq, (commentsFrom_literal hq hlen _).1, byteLength_cons, Nat.add_assoc]
        rfl
    · refine ⟨0, [], [c], r, ⟨rfl, by simp, .inl (by simp [hone]), ?_, by simp⟩, by rw [if_neg hq]⟩
      rw [hpass, if_neg hq]
      rfl

/-- Behind `a` the pass, at byte `i` with `bs` left, finds the comments of `r`, and it is in code at
every character it comes to. -/
def Passes (a r : List Char) (i : Nat) (bs : List UInt8) : Prop :=
  ∃ vs, passFrom? (a ++ r) i bs = some ⟨vs, commentsFrom .code (byteLength a) r⟩ ∧
    ∀ p ∈ vs, ∀ t, dropBytes? p (a ++ r) = some t → CodeAt .code (byteLength a) r p

theorem passes_nil {i : Nat} (h : byteLength a ≤ i) : Passes a [] i [] := by
  refine ⟨[i], by rw [passFrom?]; rfl, fun p hp t ht => ?_⟩
  obtain rfl := List.mem_singleton.1 hp
  obtain ⟨b, hb, rfl⟩ := eq_append_of_dropBytes? ht
  have hle := congrArg byteLength hb
  rw [byteLength_append, byteLength_append, byteLength_nil] at hle
  rw [show byteLength b = byteLength a by omega]
  exact codeAt_self _ _

/-- A round leads from one place to the next. -/
theorem Round.passes_cons {w t : List Char} {n : Nat} {found : List Span}
    (h : Round (byteLength a) n found (c :: r) w t) (hlow : c.toNat < 128)
    (hround : round? (a ++ c :: r) (byteLength a) (ascii c) (utf8 r) = some (n, found))
    (hrest : Passes (a ++ w) t (byteLength a + 1 + n) ((utf8 r).drop n)) :
    Passes a (c :: r) (byteLength a) (utf8 (c :: r)) := by
  obtain ⟨vs, hpass, hvs⟩ := hrest
  rw [List.append_assoc, ← h.split, byteLength_append] at hpass hvs
  refine ⟨byteLength a :: vs, ?_, ?_⟩
  · rw [utf8_cons, encode_of_lt hlow, List.singleton_append, passFrom?, hround]
    simp only [hpass, Option.map_some, h.passes]
  · intro p hp d hd
    rcases List.mem_cons.1 hp with rfl | hp
    · exact codeAt_self _ _
    · have hcode := hvs p hp d hd
      have hle : byteLength a + byteLength w ≤ p := by
        obtain ⟨-, v, -, -, hp, -⟩ := hcode
        omega
      have happend := hcode.append (h.split ▸ h.passes) fun y hy => Nat.le_trans (h.ends y hy) hle
      rwa [← h.split] at happend

/-- A character of several bytes leads to the next. -/
theorem passes_high (hlow : ¬ c.toNat < 128)
    (hrest : Passes (a ++ [c]) r (byteLength a + c.utf8Size) (utf8 r)) :
    Passes a (c :: r) (byteLength a) (utf8 (c :: r)) := by
  have hq : isQuote c = false := by
    rw [Bool.eq_false_iff]
    intro hq
    simp only [isQuote, Bool.or_eq_true, beq_iff_eq] at hq
    rcases hq with rfl | rfl <;> exact absurd (by decide) hlow
  have hstep : commentsFrom .code (byteLength a) (c :: r)
      = commentsFrom .code (byteLength a + c.utf8Size) r := by
    rw [commentsFrom_code_of_none (afterComment?_high hlow r), hq]
    rfl
  obtain ⟨vs, hpass, hvs⟩ := hrest
  have hlen : byteLength (a ++ [c]) = byteLength a + c.utf8Size := by simp
  rw [List.append_assoc, List.singleton_append, hlen] at hpass hvs
  refine ⟨List.range' (byteLength a) c.utf8Size ++ vs, ?_, ?_⟩
  · rw [utf8_cons, passFrom?_high (high_encode hlow), String.length_utf8EncodeChar, hpass, hstep]
    rfl
  · intro p hp d hd
    rcases List.mem_append.1 hp with hp | hp
    · obtain ⟨hge, hlt⟩ := List.mem_range'_1.1 hp
      by_cases heq : p = byteLength a
      · exact heq ▸ codeAt_self _ _
      · rw [dropBytes?_inside (by omega) hlt] at hd
        cases hd
    · exact (hvs p hp d hd).append (v := [c]) (l := []) hstep (by simp)

/-- From every character on the pass finds what it should. -/
theorem passes (a r : List Char) : Passes a r (byteLength a) (utf8 r) := by
  induction hn : r.length using Nat.strongRecOn generalizing a r with
  | ind n ih =>
  subst hn
  cases r with
  | nil => exact passes_nil (Nat.le_refl _)
  | cons c r =>
    by_cases hlow : c.toNat < 128
    · obtain ⟨n, found, w, t, hround, hnext⟩ := exists_round a hlow r
      have hsplit := hround.split
      have hshort : t.length < (c :: r).length := by
        have := List.length_pos_of_ne_nil hround.pos
        rw [hsplit, List.length_append]
        omega
      refine hround.passes_cons hlow hnext ?_
      have hbytes : (utf8 r).drop n = (utf8 (w ++ t)).drop (1 + n) := by
        rw [← hsplit, utf8_cons, encode_of_lt hlow, List.singleton_append, Nat.add_comm,
          List.drop_succ_cons]
      rw [hbytes, Nat.add_assoc]
      rcases hround.goes with hgo | ⟨rfl, hgo⟩
      · rw [hgo, drop_utf8, ← byteLength_append]
        exact ih _ hshort _ t rfl
      · rw [List.drop_eq_nil_of_le (by simpa using hgo)]
        exact passes_nil (by rw [byteLength_append]; omega)
    · refine passes_high hlow ?_
      have hrest := ih r.length (by simp) (a ++ [c]) r rfl
      simpa using hrest

/-! ## Walks over space and comments -/

def walkFrom? (cs : List Char) (toBreak : Bool) (i : Nat) : List UInt8 → Option Nat
  | [] => some i
  | b :: bs =>
    if isBreakByte b then
      if toBreak then some i else walkFrom? cs toBreak (i + 1) bs
    else if isBlankByte b then walkFrom? cs toBreak (i + 1) bs
    else
      match commentStop? cs i (b :: bs) with
      | none => none
      | some stop =>
        if i < stop then walkFrom? cs toBreak stop (bs.drop (stop - i - 1)) else some i
termination_by bs => bs.length
decreasing_by
  · simp
  · simp
  · simp only [List.length_drop, List.length_cons]; omega

theorem spaceLength_afterComment {t : List Char} (h : afterComment? cs = some t) (b : Bool) :
    spaceLength b .space cs + byteLength t = byteLength cs + spaceLength b .space t := by
  have hslash : '/'.utf8Size = 1 := rfl
  have hstar : '*'.utf8Size = 1 := rfl
  unfold afterComment? at h
  split at h
  · rename_i cs
    obtain rfl := Option.some.inj h
    have := spaceLength_line b cs
    simp only [spaceLength, byteLength_cons]
    omega
  · rename_i cs
    obtain rfl := Option.some.inj h
    have := spaceLength_block b cs
    simp only [spaceLength, byteLength_cons]
    omega
  · cases h

theorem spaceLength_of_none (h : afterComment? (c :: r) = none) (b : Bool) :
    spaceLength b .space (c :: r)
      = if isBreak c then if b then 0 else 1 + spaceLength b .space r
        else if isBlank c then 1 + spaceLength b .space r else 0 := by
  rw [spaceLength]
  · rintro t rfl rfl
    cases h
  · rintro t rfl rfl
    cases h

/-- A walk from a character on never cuts one, and ends where the walk over characters does. -/
theorem walkFrom?_eq (toBreak : Bool) (a r : List Char) :
    walkFrom? (a ++ r) toBreak (byteLength a) (utf8 r)
      = some (byteLength a + spaceLength toBreak .space r) := by
  induction hn : r.length using Nat.strongRecOn generalizing a r with
  | ind n ih =>
  subst hn
  cases r with
  | nil => rw [utf8_nil, walkFrom?, spaceLength]; rfl
  | cons c r =>
    have hstop := commentStop?_eq a (c :: r)
    by_cases hlow : c.toNat < 128
    · have hbytes : utf8 (c :: r) = ascii c :: utf8 r := by
        rw [utf8_cons, encode_of_lt hlow, List.singleton_append]
      have hchar : walkFrom? (a ++ c :: r) toBreak (byteLength a + 1) (utf8 r)
          = some (byteLength a + (1 + spaceLength toBreak .space r)) := by
        have hrest := ih r.length (by simp) (a ++ [c]) r rfl
        simpa [utf8Size_of_lt hlow, Nat.add_assoc] using hrest
      rw [hbytes] at hstop ⊢
      rw [walkFrom?, isBreakByte_ascii hlow, isBlankByte_ascii hlow, hstop]
      cases hafter : afterComment? (c :: r) with
      | none =>
        rw [spaceLength_of_none hafter, hchar]
        simp only [Option.getD_none, Nat.sub_self, Nat.add_zero, Nat.lt_irrefl, if_false]
        split
        · split <;> rfl
        · split <;> rfl
      | some t =>
        obtain ⟨w, hne, hw⟩ := skip_suffix (skip_of_afterComment? hafter)
        have hpos := Grammar.byteLength_pos (by simpa using hne : w.isEmpty = false)
        have hlen := spaceLength_afterComment hafter toBreak
        have hshort : t.length < (c :: r).length := by
          have := List.length_pos_of_ne_nil hne
          rw [hw, List.length_append]
          omega
        have hdrop : (utf8 r).drop (byteLength w - 1) = utf8 t := by
          rw [← drop_utf8 w t, ← hw, hbytes]
          obtain ⟨n, hn⟩ : ∃ n, byteLength w = n + 1 := ⟨byteLength w - 1, by omega⟩
          rw [hn, List.drop_succ_cons, Nat.add_sub_cancel]
        have hrest := ih t.length hshort (a ++ w) t rfl
        rw [List.append_assoc, ← hw, byteLength_append] at hrest
        have hsize : byteLength (c :: r) - byteLength t = byteLength w := by
          rw [hw, byteLength_append, Nat.add_sub_cancel]
        have hplain : isBreak c = false ∧ isBlank c = false := by
          rw [eq_slash_of_afterComment? hafter]
          exact ⟨rfl, rfl⟩
        simp only [hplain, Bool.false_eq_true, if_false, Option.getD_some, hsize]
        rw [if_pos (by omega), Nat.add_sub_cancel_left, hdrop, hrest]
        congr 1
        omega
    -- No byte of another character is space or opens a comment, so the walk ends here.
    · obtain ⟨b, hs, he⟩ := exists_encode c
      have hb := high_encode hlow b (by rw [he]; exact List.mem_cons_self)
      have hzero : spaceLength toBreak .space (c :: r) = 0 := by
        rw [spaceLength_of_none (afterComment?_high hlow r), if_neg fun h => hlow (lt_of_isBreak h),
          if_neg fun h => hlow (lt_of_isBlank h)]
      rw [hzero, utf8_cons, he, List.cons_append, walkFrom?, isBreakByte_of_high hb,
        isBlankByte_of_high hb, commentStop?_high hb]
      simp

/-! ## The line break of a text -/

def firstBreak? : List Char → Option Nat
  | [] => none
  | c :: cs => if isBreak c then some 0 else (firstBreak? cs).map (c.utf8Size + ·)

def lineBreak? (cs : List Char) : Option String :=
  match firstBreak? cs with
  | none => some "\n"
  | some i => (dropBytes? i cs).map fun r =>
      if ['\r', '\n'].isPrefixOf r then "\r\n" else if ['\r'].isPrefixOf r then "\r" else "\n"

theorem terminator_cons (h : c = '\r' → cs.head? ≠ some '\n') :
    terminator (c :: cs)
      = if c == '\r' then "\r" else if c == '\n' then "\n" else terminator cs := by
  rw [terminator]
  rintro t rfl rfl
  exact h rfl rfl

theorem lineBreak?_eq (cs : List Char) : lineBreak? cs = some (terminator cs) := by
  induction cs with
  | nil => rfl
  | cons c cs ih =>
    by_cases hc : isBreak c = true
    · rw [lineBreak?, firstBreak?, if_pos hc]
      simp only [dropBytes?_zero, Option.map_some]
      rcases Scan.break_cases hc with rfl | rfl
      · simp [terminator_cons]
      · by_cases hn : cs.head? = some '\n'
        · obtain ⟨t, rfl⟩ := List.head?_eq_some_iff.1 hn
          simp [terminator]
        · rw [terminator_cons fun _ => hn]
          cases cs with
          | nil => simp
          | cons d cs => simp [Ne.symm (show d ≠ '\n' by simpa using hn)]
    · have hne : c ≠ '\r' ∧ c ≠ '\n' := by
        simp only [isBreak, Bool.or_eq_true, beq_iff_eq, not_or] at hc
        exact hc.symm
      have hstep : terminator (c :: cs) = terminator cs := by
        rw [terminator_cons fun h => absurd h hne.1]
        simp [hne]
      rw [hstep, ← ih, lineBreak?, firstBreak?, if_neg hc, lineBreak?]
      cases firstBreak? cs with
      | none => rfl
      | some n => simp [dropBytes?_cons_add]

namespace Source

variable {s : Source}

/-- The pass over the bytes finds the table of comments, and is in code at every character it comes
to. -/
theorem pass?_eq (s : Source) :
    ∃ vs, pass? s.chars = some ⟨vs, s.comments⟩ ∧ ∀ p ∈ vs, s.Boundary p → s.OnCode p := by
  obtain ⟨vs, hpass, hvs⟩ := passes [] s.chars
  refine ⟨vs, by rw [s.comments_eq]; exact hpass, fun p hp hbound => ?_⟩
  obtain ⟨t, ht⟩ := hbound
  obtain ⟨before, w, t, hcs, he, hcode, hbefore⟩ := hvs p hp t ht
  refine ⟨before, t, rest?_eq_some_iff.2 ⟨w, hcs, by simpa using he⟩, ?_, hbefore⟩
  rw [s.comments_eq]
  exact hcode

def walk? (s : Source) (toBreak : Bool) (o : Nat) : Option Nat :=
  walkFrom? s.chars toBreak o ((utf8 s.chars).drop o)

theorem walk?_eq {o : Nat} (toBreak : Bool) (h : s.Boundary o) :
    s.walk? toBreak o = some (s.skipSpace toBreak o) := by
  obtain ⟨r, hr⟩ := h
  obtain ⟨a, ha, rfl⟩ := rest?_eq_some_iff.1 hr
  simp only [walk?, skipSpace, forward, hr, ha, drop_utf8]
  exact walkFrom?_eq toBreak a r

end Source

end Transcribe.Text
