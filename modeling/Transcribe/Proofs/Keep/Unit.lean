/-
  Transcribe.Proofs.Keep.Unit — packages, imports and the way to a type keep the comments in order.

  In front of a type not all comments are copied, but none is copied twice: where a pen is moved to
  what belongs to the type, it is moved on, or back over blank lines. Behind a token that ends at
  `x` a script may go on at the end of its line, on the next line or behind the blank lines there
  (`Onward`), and from there it can be moved to what belongs to the next token.
  - `ofPrologue`: package and imports.
  - `Kept.toLead`: the way to a type.
-/

import Transcribe.Proofs.Keep.Decl
import Transcribe.Script.Unit

namespace Transcribe

open Text (Span Source Scan byteLength isBreak)
open Text.Scan (Plain texts)
open Grammar (Lexeme calm)
open Java (Package Import TypeDecl CompilationUnit Node Rule Good Sound)

/-! ## Lines of the target -/

/-- A literal without escapes. -/
theorem Text.Scan.plain_quoted {w : List Char}
    (h : ∀ c ∈ w, c ≠ '\\' ∧ c ≠ '\x22' ∧ isBreak c = false) :
    Plain ('\x22' :: (w ++ ['\x22'])) := by
  have hinner : Scan.finish (.literal '\x22') (w ++ ['\x22']) = .code ∧
      texts (.literal '\x22') (w ++ ['\x22']) = [] := by
    induction w with
    | nil => exact ⟨rfl, rfl⟩
    | cons c w ih =>
      obtain ⟨⟨hesc, hquote, hbreak⟩, hw⟩ := List.forall_mem_cons.1 h
      have hnext : (Scan.literal '\x22').next c = .literal '\x22' := by
        simp [Scan.next, hesc, hquote, hbreak]
      rw [List.cons_append, Scan.finish_cons, Scan.texts, hnext]
      exact ⟨(ih hw).1, by rw [(ih hw).2]; rfl⟩
  exact ⟨hinner.1, by rw [Scan.texts]; exact hinner.2⟩

/-- The line that includes a header. -/
theorem plain_include {t : String} (ht : ∀ c ∈ t.toList, Java.isIdentChar c = true) :
    Plain ("#include \x22" ++ t ++ ".h\x22").toList := by
  have hquoted : Plain ('\x22' :: ((t.toList ++ ['.', 'h']) ++ ['\x22'])) := by
    refine Scan.plain_quoted fun c hc => ?_
    rcases List.mem_append.1 hc with hc | hc
    · have hident := ht c hc
      refine ⟨Java.ne_of_isIdentChar hident rfl, Java.ne_of_isIdentChar hident rfl, ?_⟩
      simp [isBreak, Java.ne_of_isIdentChar hident (d := '\n') rfl,
        Java.ne_of_isIdentChar hident (d := '\r') rfl]
    · simp only [List.mem_cons, List.not_mem_nil, or_false] at hc
      rcases hc with rfl | rfl <;> decide
  have hplain := (Scan.plain_of_calm (w := "#include ".toList) rfl).append hquoted
  simpa [String.toList_append] using hplain

theorem isIdentChar_last {n : Java.Name} (h : ∀ x ∈ n.segments, Java.Spells .identifier x.text.toList) :
    ∀ c ∈ n.last.toList, Java.isIdentChar c = true := by
  unfold Java.Name.last
  cases hlast : (n.segments.map (·.text)).getLast? with
  | none => simp
  | some t =>
    obtain ⟨x, hx, rfl⟩ := List.mem_map.1 (List.mem_of_getLast? hlast)
    exact (h x hx).identifier.2

theorem plain_importLine {s : Setting} {i : Import} {line : String}
    (h : ∀ x ∈ i.name.segments, Java.Spells .identifier x.text.toList)
    (hline : line ∈ (Script.importLine s i).toList) : Plain line.toList := by
  have husing : ∀ n : String, calm n.toList = true → Plain ("using " ++ n ++ ";").toList := by
    intro n hn
    simp only [String.toList_append]
    exact Scan.plain_of_calm (Grammar.calm_append (Grammar.calm_append rfl hn) rfl)
  rw [Option.mem_toList, Script.importLine] at hline
  split at hline
  · split at hline
    · cases hline
    · cases hline
      exact plain_include (isIdentChar_last h)
  · obtain ⟨n, hn, rfl⟩ := Option.map_eq_some_iff.1 hline
    refine husing n ?_
    split at hn
    · cases hn
      exact calm_joined rfl h
    · unfold Java.Name.qualifier? at hn
      split at hn
      · cases hn
      · cases hn
        refine calm_intercalate rfl fun t ht => ?_
        obtain ⟨x, hx, rfl⟩ := List.mem_map.1 ht
        exact (calm_of_identifier (h x (List.dropLast_subset _ hx))).1

theorem plain_namespace {p : Package}
    (h : ∀ x ∈ p.name.segments, Java.Spells .identifier x.text.toList) :
    Plain ("namespace " ++ p.name.joined "::" ++ " \x7b").toList := by
  simp only [String.toList_append]
  exact Scan.plain_of_calm (Grammar.calm_append (Grammar.calm_append rfl (calm_joined rfl h)) rfl)

namespace Keeps

variable {j : Job} {ls : List (Lexeme Rule)} {s : Setting}

/-! ## Package and imports -/

theorem skipLine (hs : j.source.Sealed) : Keeps j false .code .code [] [.skipLine] := by
  refine of_still rfl fun b a ls bs p q hp hrun => ?_
  obtain rfl := Except.ok.inj hrun
  rw [← List.append_nil ls]
  have hline := hp.onCode.skipSpace hs true
  have hle := Source.le_skipSpace (s := j.source) true p.position
  have hbreak := (Source.inGap_skipBreak hline.boundary).le
  exact hp.pass hline.skipBreak.1 (.loss (Nat.le_trans hle hbreak) rfl)

theorem skipBlankLines {strict : Bool} : Keeps j strict .code .code [] [.skipBlankLines] := by
  refine of_still rfl fun b a ls bs p q hp hrun => ?_
  obtain rfl := Except.ok.inj hrun
  rw [← List.append_nil ls]
  obtain ⟨hon, hnone⟩ := hp.onCode.skipBlankLines
  exact hp.pass hon (.plain (Source.inGap_skipBlankLines hp.onCode.boundary).le hnone rfl)

theorem dropName (hs : j.source.Sealed) {n : Java.Name}
    (h : ∀ x ∈ n.segments, Java.Spells .identifier x.text.toList) :
    Keeps j false .code .code [] (Script.dropName n) := by
  have hsep : Keeps j false .code .code [] [.skipSpace, .drop ".", .skipSpace] :=
    (skipSpace rfl hs).cons ((drop rfl).cons (skipSpace rfl hs))
  have hnames : Keeps j false .code .code (n.segments.flatMap fun _ => []) (Script.dropName n) :=
    intercalate hsep fun x hx => drop (calm_of_identifier (h x hx)).1
  have hnone : (n.segments.flatMap fun _ => ([] : List Span)) = [] := by simp
  rwa [hnone] at hnames

theorem needs_dropName {n : Java.Name} {r : Script}
    (h : ∀ x ∈ n.segments, Java.Spells .identifier x.text.toList) (hr : Needs j r) :
    Needs j (Script.dropName n ++ r) := by
  unfold Script.dropName
  cases hsegments : n.segments with
  | nil => exact hr
  | cons x xs =>
    have hx : Needs j [.drop x.text] := .swap (calm_of_identifier (h x (by simp [hsegments]))).2
    cases xs with
    | nil => exact hx.append
    | cons y ys =>
      simp only [List.map_cons, List.intercalate_cons_cons, List.append_assoc]
      exact hx.append

theorem ofPackage (hj : Orderly j ls false) {p : Package} (h : Good j.source ls (.package p)) :
    Keeps j false .ready .code [] (Script.ofPackage s p) := by
  have hs := hj.clear.isSealed
  unfold Script.ofPackage
  split
  · have hmoves : List.all (.drop "package" :: .skipSpace :: Script.dropName p.name
        ++ [Stroke.skipSpace, .drop ";"]) Stroke.isMove = true := by
      simp only [List.cons_append, List.all_cons, List.all_append, isMove_dropName]
      rfl
    have hframe : Keeps j false .ready .code [p.span] (Script.framed p.span
        (.drop "package" :: .skipSpace :: Script.dropName p.name ++ [Stroke.skipSpace, .drop ";"]
          ++ [].map .write)) :=
      frame_moves [] h.start_lt (Nat.le_of_lt h.solid.lt) (h.onCode hj.clear rfl).2 hmoves (by simp)
    rw [List.map_nil, List.append_nil] at hframe
    exact hframe.forget rfl
  · have hend : Keeps j false .code .code [] (.write (p.name.joined ".") :: Script.token ";") :=
      (write (Scan.plain_of_calm (calm_joined rfl h.packageName))).cons
        (token_code hs rfl (by decide))
    have hneeds : Needs j (.write (p.name.joined ".") :: Script.token ";") :=
      (Needs.swap (by decide)).space.write _
    have hname := ((dropName hs h.packageName).append hend).of_needs
      (needs_dropName h.packageName hneeds)
    exact frame h.start_lt ((swap rfl (Scan.plain_of_calm rfl)).cons
      ((copyDelimiter hs).cons hname) _)

theorem ofImport (hj : Orderly j ls false) {i : Import} (h : Good j.source ls (.importing i)) :
    Keeps j false .ready .code [] (Script.ofImport s i) := by
  unfold Script.ofImport
  split
  · exact frame h.start_lt (reject _ _)
  · exact (frame_moves (r := [.drop "import", .moveTo i.span.stop]) _ h.start_lt
      (Nat.le_of_lt h.solid.lt) (h.onCode hj.clear rfl).2 rfl
      fun line hline => plain_importLine h.importName hline).forget rfl

theorem openNamespace {p : Package}
    (h : ∀ x ∈ p.name.segments, Java.Spells .identifier x.text.toList) {strict : Bool} :
    Keeps j strict .code .code [] (Script.openNamespace p) :=
  (write (plain_namespace h)).cons (newline.mono rfl rfl)

/-- Package and imports. -/
theorem ofPrologue (hj : Orderly j ls false) {u : CompilationUnit}
    (hpackage : ∀ p ∈ u.package?, Good j.source ls (.package p))
    (himports : ∀ i ∈ u.imports, Good j.source ls (.importing i)) :
    Keeps j false .code .ready [] (Script.ofPrologue s u) := by
  have hs := hj.clear.isSealed
  have hskip : Keeps j false .code .code [] [.skipLine, .skipBlankLines] :=
    (skipLine hs).cons skipBlankLines
  have hfirst : Keeps j false .code .code [] (u.package?.toList.flatMap fun p =>
      .copySpace :: Script.ofPackage s p ++
        if s.isCpp then [Stroke.skipLine, .skipBlankLines] else []) := by
    refine (flatMap (m := fun _ => []) fun p hp => ?_).forget rfl
    exact (space hs (ofPackage hj (hpackage p (Option.mem_toList.1 hp)))).append (hskip.optional _)
  have hsecond : Keeps j false .code .code [] (u.imports.flatMap fun i =>
      .copySpace :: Script.ofImport s i ++ if Script.isDropped s i then [Stroke.skipLine] else []) := by
    refine (flatMap (m := fun _ => []) fun i hi => ?_).forget rfl
    exact (space hs (ofImport hj (himports i hi))).append ((skipLine hs).optional _)
  have hspace : ∀ p, u.package? = some p →
      Keeps j false .line .ready [] (.closeLine 2 :: Script.openNamespace p) := fun p hp =>
    ((closeLine (by decide)).cons (openNamespace (hpackage p hp).packageName)).mono rfl rfl
  unfold Script.ofPrologue
  rw [List.append_assoc]
  refine (hfirst.append hsecond).append ?_
  cases Script.lineOpen s u with
  | true =>
    have hline : Keeps j false .code .line [] [.copyLine] := (copyLine hs).mono rfl rfl
    simp only [if_true]
    refine hline.append ?_
    split
    · rename_i p hp
      split
      · exact hspace p hp
      · exact copyBreak
    · exact copyBreak
  | false =>
    simp only [Bool.false_eq_true, if_false, List.nil_append]
    split
    · rename_i p hp
      split
      · exact (hspace p hp).of_code
      · exact (nil (g := .code)).mono rfl rfl
    · exact (nil (g := .code)).mono rfl rfl

end Keeps

/-! ## Where package and imports end -/

/-- Where a script may go on behind a token that ends at `x`: at the end of its line, on the next
line or behind the blank lines there. -/
def Text.Source.Onward (s : Source) (x o : Nat) : Prop :=
  o = s.skipSpace true x ∨ o = s.skipBreak (s.skipSpace true x) ∨
    o = s.skipBlankLines (s.skipBreak (s.skipSpace true x))

def Java.CompilationUnit.prologueEnd? (u : CompilationUnit) : Option Nat :=
  match u.imports.getLast? with
  | some i => some i.span.stop
  | none => u.package?.map (·.span.stop)

namespace Ends

variable {j : Job} {r : Script} {o : Nat} {s : Setting} {u : CompilationUnit}

/-- A stroke that leads on from where a script ends. -/
theorem stroke {st : Stroke} (f : Nat → Nat) (h : Ends j r o)
    (hst : ∀ p q, j.stroke p st = .ok q → q.trailing = p.trailing ∧ q.position = f p.position) :
    Ends j (r ++ [st]) (f o) := by
  intro p q hrun htrailing
  obtain ⟨mid, hmid, hlast⟩ := Job.run_append_eq_ok.1 hrun
  obtain ⟨hsame, hpos⟩ := hst mid q (Job.run_singleton ▸ hlast)
  rw [hpos, h hmid (hsame ▸ htrailing)]

theorem skipLine (h : Ends j r o) :
    Ends j (r ++ [Stroke.skipLine]) (j.source.skipBreak (j.source.skipSpace true o)) := by
  refine h.stroke (fun o => j.source.skipBreak (j.source.skipSpace true o)) fun p q hq => ?_
  obtain rfl := Except.ok.inj hq
  exact ⟨rfl, rfl⟩

theorem skipBlankLines (h : Ends j r o) :
    Ends j (r ++ [Stroke.skipBlankLines]) (j.source.skipBlankLines o) := by
  refine h.stroke j.source.skipBlankLines fun p q hq => ?_
  obtain rfl := Except.ok.inj hq
  exact ⟨rfl, rfl⟩

theorem copyLine (h : Ends j r o) : Ends j (r ++ [Stroke.copyLine]) (j.source.skipSpace true o) := by
  refine h.stroke (j.source.skipSpace true) fun p q hq => ?_
  obtain ⟨cs, -, rfl⟩ := Job.copySpace_ok hq
  obtain ⟨w, -, hwrite⟩ := j.exists_writeSpace cs p
  rw [hwrite]
  exact ⟨rfl, rfl⟩

theorem copyBreak (h : Ends j r o) : Ends j (r ++ [Stroke.copyBreak]) (j.source.skipBreak o) := by
  refine h.stroke j.source.skipBreak fun p q hq => ?_
  simp only [Job.stroke, Job.copyBreak] at hq
  split at hq
  · obtain rfl := Except.ok.inj hq
    exact ⟨rfl, rfl⟩
  · cases hq

theorem newline (h : Ends j r o) : Ends j (r ++ [Stroke.newline]) o := by
  refine h.stroke id fun p q hq => ?_
  obtain rfl := Except.ok.inj hq
  exact ⟨rfl, rfl⟩

theorem closeLine {n : Nat} (h : Ends j r o) : Ends j (r ++ [Stroke.closeLine n]) o := by
  have hrepeat : ∀ (n : Nat) (p : Pen), (Nat.repeat j.newline n p).trailing = p.trailing ∧
      (Nat.repeat j.newline n p).position = p.position := by
    intro n p
    induction n with
    | zero => exact ⟨rfl, rfl⟩
    | succ n ih => exact ih
  refine h.stroke id fun p q hq => ?_
  obtain rfl := Except.ok.inj hq
  split
  · exact ⟨rfl, rfl⟩
  · exact hrepeat n p

/-- The imports end with the last, or behind its line if the line goes. -/
theorem imports {i : Import} (h : u.imports.getLast? = some i) :
    Ends j (u.imports.flatMap fun i =>
        .copySpace :: Script.ofImport s i ++ if Script.isDropped s i then [Stroke.skipLine] else [])
      (if Script.isDropped s i then j.source.skipBreak (j.source.skipSpace true i.span.stop)
        else i.span.stop) := by
  obtain ⟨is, his⟩ := List.getLast?_eq_some_iff.1 h
  have hspan : Ends j (.copySpace :: Script.ofImport s i) i.span.stop :=
    Ends.append (r := [.copySpace]) ends_framed
  rw [his, List.flatMap_append, List.flatMap_singleton]
  refine Ends.append ?_
  split
  · exact hspan.skipLine
  · rwa [List.append_nil]

theorem package {p : Package} (h : u.package? = some p) :
    Ends j (u.package?.toList.flatMap fun p =>
        .copySpace :: Script.ofPackage s p ++ if s.isCpp then [Stroke.skipLine, .skipBlankLines] else [])
      (if s.isCpp then j.source.skipBlankLines
        (j.source.skipBreak (j.source.skipSpace true p.span.stop)) else p.span.stop) := by
  have hspan : Ends j (.copySpace :: Script.ofPackage s p) p.span.stop :=
    Ends.append (r := [.copySpace]) ends_framed
  rw [h, Option.toList_some, List.flatMap_singleton]
  split
  · have := hspan.skipLine.skipBlankLines
    rwa [List.append_assoc] at this
  · rwa [List.append_nil]

/-- Package and imports end with the last of them while its line is open, and otherwise behind the
line. -/
theorem entries {x : Nat} (hx : u.prologueEnd? = some x) :
    ∃ o, Ends j (u.package?.toList.flatMap (fun p => .copySpace :: Script.ofPackage s p ++
          if s.isCpp then [Stroke.skipLine, .skipBlankLines] else [])
        ++ u.imports.flatMap fun i => .copySpace :: Script.ofImport s i ++
          if Script.isDropped s i then [Stroke.skipLine] else []) o ∧
      (if Script.lineOpen s u then o = x else j.source.Onward x o) := by
  unfold Java.CompilationUnit.prologueEnd? at hx
  unfold Script.lineOpen
  cases hlast : u.imports.getLast? with
  | some i =>
    rw [hlast] at hx
    obtain rfl := Option.some.inj hx
    refine ⟨_, (imports hlast).append, ?_⟩
    cases hdropped : Script.isDropped s i with
    | true => simp [Source.Onward, hdropped]
    | false => simp [hdropped]
  | none =>
    rw [hlast] at hx
    obtain ⟨p, hp, rfl⟩ := Option.map_eq_some_iff.1 hx
    obtain hnone : u.imports = [] := List.getLast?_eq_none_iff.1 hlast
    rw [hnone, List.flatMap_nil, List.append_nil]
    refine ⟨_, package hp, ?_⟩
    cases s.isCpp with
    | true => simp [Source.Onward]
    | false => simp [hp]

/-- What follows them ends where the text behind the last goes on. -/
theorem prologueEnd {x : Nat} (h : Ends j r o)
    (ho : if Script.lineOpen s u then o = x else j.source.Onward x o) :
    ∃ o', Ends j (r ++ (if Script.lineOpen s u then [Stroke.copyLine] else []) ++
        match u.package? with
        | some p =>
          if s.isCpp then .closeLine 2 :: Script.openNamespace p
          else if Script.lineOpen s u then [.copyBreak] else []
        | none => if Script.lineOpen s u then [.copyBreak] else []) o' ∧
      j.source.Onward x o' := by
  have hspace : ∀ {r : Script} {o : Nat} (p : Package), Ends j r o →
      Ends j (r ++ .closeLine 2 :: Script.openNamespace p) o := by
    intro r o p h
    have hline := ((h.closeLine (n := 2)).write ("namespace " ++ p.name.joined "::" ++ " \x7b")).newline
    simpa [Script.openNamespace] using hline
  cases hopen : Script.lineOpen s u with
  | true =>
    rw [hopen, if_pos rfl] at ho
    subst ho
    simp only [if_true]
    split
    · split
      · exact ⟨_, hspace _ h.copyLine, .inl rfl⟩
      · exact ⟨_, h.copyLine.copyBreak, .inr (.inl rfl)⟩
    · exact ⟨_, h.copyLine.copyBreak, .inr (.inl rfl)⟩
  | false =>
    rw [hopen, if_neg (by simp)] at ho
    simp only [Bool.false_eq_true, if_false, List.append_nil]
    split
    · split
      · exact ⟨_, hspace _ h, ho⟩
      · exact ⟨_, by rwa [List.append_nil], ho⟩
    · exact ⟨_, by rwa [List.append_nil], ho⟩

theorem prologue {x : Nat} (hx : u.prologueEnd? = some x) :
    ∃ o, Ends j (Script.ofPrologue s u) o ∧ j.source.Onward x o := by
  obtain ⟨o, hends, ho⟩ := entries (j := j) (s := s) hx
  exact hends.prologueEnd ho

end Ends

/-! ## The way to a token -/

def Text.Source.Reaches (s : Source) (o y : Nat) : Prop :=
  o = 0 ∨ ∃ x, s.OnCode x ∧ s.skipSpaceBack x = x ∧ x ≤ y ∧ s.Onward x o

theorem Text.Source.Reaches.mono {s : Source} {o y z : Nat} (h : s.Reaches o y) (hyz : y ≤ z) :
    s.Reaches o z := by
  refine h.imp id ?_
  rintro ⟨x, hx, hback, hle, hon⟩
  exact ⟨x, hx, hback, Nat.le_trans hle hyz, hon⟩

theorem Text.Source.Onward.le {s : Source} {x o : Nat} (h : s.Onward x o) (hx : s.Boundary x) :
    o ≤ s.skipSpace false x := by
  have hline := Source.inGap_skipSpace true hx
  have hbreak := hline.trans (Source.inGap_skipBreak hline.boundary)
  have hblank := hbreak.trans (Source.inGap_skipBlankLines hbreak.boundary)
  have hle : ∀ o, s.InGap x o → o ≤ s.skipSpace false x := by
    intro o ho
    rw [← Source.skipSpace_eq_of_inGap ho]
    exact Source.le_skipSpace false o
  rcases h with rfl | rfl | rfl
  · exact hle _ hline
  · exact hle _ hbreak
  · exact hle _ hblank

namespace Kept

variable {j : Job} {b bs : List Char} {lost : List Span} {p : Pen} {y : Nat}

/-- A pen may be moved back over space without comments. -/
theorem back {o : Nat} (h : Kept j false b 0 lost bs .code p) (hon : j.source.OnCode o)
    (hle : o ≤ p.position) (hnone : j.source.within o p.position = []) :
    Kept j false b 0 lost bs .code (p.moveTo o) := by
  obtain ⟨e, he, hledger, hstage, hbs⟩ := h.text
  obtain ⟨ps, hps, -, hcopies⟩ := hledger.copies
  rw [hon.within_append (Nat.zero_le o) hle, hnone, List.append_nil] at hps
  exact ⟨hon, ⟨e, he, ⟨Nat.zero_le o, by simp, ps, hps, by simp, hcopies⟩, hstage, hbs⟩, h.ruler,
    h.column, h.dedent, h.trailing⟩

/-- A pen is moved on to what belongs to a token, or back over blank lines. -/
theorem toLead (h : Kept j false b 0 lost bs .ready p) (hs : j.source.Sealed)
    (hy : j.source.OnCode y) (hstart : j.source.skipSpace false y = y) (hlt : y < j.source.size)
    (hreach : j.source.Reaches p.position y) :
    Kept j false b 0 lost bs .code (p.moveTo (j.source.leadStart y)) := by
  have hlead := hy.leadStart hs
  have hpass : ∀ {p : Pen}, Kept j false b 0 lost bs .code p →
      p.position ≤ j.source.leadStart y →
      Kept j false b 0 lost bs .code (p.moveTo (j.source.leadStart y)) :=
    fun hp hle => (hp.pass hlead (.loss hle rfl)).forget rfl
  rcases hreach with hzero | ⟨x, hx, hback, hxy, hon⟩
  · exact hpass (h.code_of_ready (by omega)) (by omega)
  · have hend := hon.le hx.boundary
    have hself : j.source.skipSpace false x ≤ y := hx.skipSpace_le hy hxy (.inl hstart)
    have hcode := h.code_of_ready (by omega)
    rcases Source.leadStart_cases hx hback hy hstart hxy with heq | hge
    · rcases hon with hline | hbreak | hblank
      · refine hpass hcode ?_
        rw [hline, heq]
        exact (Source.inGap_skipBreak (Source.inGap_skipSpace true hx.boundary).boundary).le
      · exact hpass hcode (Nat.le_of_eq (hbreak.trans heq.symm))
      · rw [← heq] at hblank
        obtain ⟨-, hnone⟩ := hlead.skipBlankLines
        rw [← hblank] at hnone
        refine hcode.back hlead ?_ hnone
        rw [hblank]
        exact (Source.inGap_skipBlankLines hlead.boundary).le
    · exact hpass hcode (by omega)

end Kept

end Transcribe
