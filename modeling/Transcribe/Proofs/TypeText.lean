/-
  Transcribe.Proofs.TypeText — what is written for the types of a text.

  A match of the grammar is taken apart from left to right, and its tokens are read off in the
  order of the type. What a type has by itself is read that way; its pairs of brackets are not, for
  the number of them that the tree keeps need not be the number in the text.

  A `Laid` match begins behind a gap and has its pieces and its text with it. Reading the outline of
  a type from there, one ends where the next token is the one at `c` (`Nears`) or with a token
  behind which there is no other up to `d` (`Ends`). An array type is `Bracketed` if as many pairs
  of brackets stand behind its element as the tree has dimensions; a comment with a bracket in it
  makes the two differ, and then the script of the type is stuck at the pair that is not there.
  - `Laid`: a match in its text.
  - `readable_of_derivation`: a type can be read where it stands if its pairs of brackets can.
  - `reads_of_array`: an array type is written only if its pairs of brackets are there.
  - `types_spelled`: what is written for a type is its spelling.
-/

import Transcribe.Proofs.Output
import Transcribe.Proofs.TypeName

namespace Transcribe.Java

open Grammar (Peg Mode Trial Cursor Derivation Lexeme Takes gap)
open Text (Span Source byteLength)

variable {s : Source} {ls : List (Lexeme Rule)}
variable {t : String} {r : Rule} {raw : Span} {parts : List (Derivation Rule)} {ps : List Piece}
  {p : Profile}

/-! ## Matches in their text -/

def Laid (s : Source) (ls : List (Lexeme Rule)) (e : Peg Rule) (c : Cursor) (ps : List Piece)
    (d : Cursor) : Prop :=
  ∃ m ts, m.token = false ∧ gap c = ([], c) ∧ Takes Rule.grammar m (.once e) c ts d ∧
    Scene s ls c ts ps d

namespace Laid

variable {x y : Peg Rule} {r : Rule} {c d : Cursor} {ps : List Piece}

theorem seq (h : Laid s ls (.seq x y) c ps d) : ∃ qs rs mid mid', ps = qs ++ rs ∧
    Laid s ls x c qs mid ∧ s.Spaced mid.offset mid'.offset ∧ Laid s ls y mid' rs d := by
  obtain ⟨m, ts, hm, hfix, htakes, hscene⟩ := h
  cases htakes with
  | @seq _ _ _ _ before mid behind _ hx hy =>
    obtain ⟨v, hv⟩ := hx.reaches
    obtain ⟨qs, rs, rfl, hxscene, hyscene, hspaced⟩ := hscene.seq hm hv hx.inOrder hy.inOrder
    exact ⟨qs, rs, mid, _, rfl, ⟨m, _, hm, hfix, hx, hxscene⟩, hspaced,
      ⟨m, _, hm, gap_gap hm mid, hy, hyscene⟩⟩

theorem opt (h : Laid s ls (.opt x) c ps d) : ps = [] ∧ c = d ∨ Laid s ls x c ps d := by
  obtain ⟨m, ts, hm, hfix, htakes, hscene⟩ := h
  cases htakes with
  | absent =>
    exact .inl ⟨by simpa [piecesOfAll] using hscene.pieces.symm, rfl⟩
  | present hx => exact .inr ⟨m, ts, hm, hfix, hx, hscene⟩

theorem alt (h : Laid s ls (.alt x y) c ps d) : Laid s ls x c ps d ∨ Laid s ls y c ps d := by
  obtain ⟨m, ts, hm, hfix, htakes, hscene⟩ := h
  cases htakes with
  | left hx => exact .inl ⟨m, ts, hm, hfix, hx, hscene⟩
  | right _ hy => exact .inr ⟨m, ts, hm, hfix, hy, hscene⟩

theorem word (hfirm : firm (.text t) = true) (hcalm : level false (.text t) = true)
    (h : Laid s ls (.text t) c ps d) :
    ps = [] ∧ s.Solid ⟨c.offset, d.offset⟩ ∧ s.slice? ⟨c.offset, d.offset⟩ = some t.toList := by
  obtain ⟨m, ts, hm, hfix, htakes, hscene⟩ := h
  cases htakes with
  | @word _ _ _ rest hword =>
    have hw := Grammar.reaches_of_afterWord? hword
    obtain ⟨rfl, hsolid, -⟩ := grown_leaf hm hfirm hcalm hw hscene
    have hon := hscene.on
    unfold Cursor.On at hon
    rw [hw.rest_eq] at hon
    exact ⟨rfl, hsolid, Source.slice?_eq_some hon rfl⟩

/-- What stands around a match. -/
theorem linked (hlevel : level false x = true) (hfirm : firm x = true) (h : Laid s ls x c ps d) :
    ∃ items, Linked s c.offset items d.offset ∧ Forms x items ∧
      items.flatMap (·.pieces) = ps ∧ ∀ i ∈ items, Grown s ls i := by
  obtain ⟨m, ts, hm, hfix, htakes, hscene⟩ := h
  have hlevel : trialLevel false (.once x) = true := hlevel
  exact grown_of_takes hm htakes hlevel hfirm (fun _ _ => hfix) (by simp) hscene

/-- The span of a node, and what it is made of. -/
theorem node (r : Rule) (hkind : r.kind = .tree) (hend : r ≠ .endOfInput)
    (hunit : r ≠ .compilationUnit) (h : Laid s ls r.body c ps d) :
    s.Solid (trim s ⟨c.offset, d.offset⟩) ∧
      s.Spaced c.offset (trim s ⟨c.offset, d.offset⟩).start ∧
      s.Spaced (trim s ⟨c.offset, d.offset⟩).stop d.offset := by
  obtain ⟨hfirm, hyields⟩ := firm_body hkind hend hunit
  obtain ⟨items, hlinked, hforms, -, -⟩ := h.linked (level_body hkind) hfirm
  have hne := hforms.ne_nil hyields
  obtain ⟨hsolid, htrim⟩ := hlinked.hull hne
  obtain ⟨-, hlast⟩ := hlinked.getLast hne
  rw [htrim]
  refine ⟨hsolid, ?_⟩
  cases items with
  | nil => exact absurd rfl hne
  | cons i items => exact ⟨hlinked.1, hlast⟩

/-- A rule that is no plain word has one piece, which stands at the span it keeps. -/
theorem piece (hlevel : level false (.rule r) = true) (hfirm : firm (.rule r) = true)
    (hplain : Piece.isPlainWord r = false) (h : Laid s ls (.rule r) c ps d) :
    ∃ p, ps = [p] ∧ ∀ sp, p.span? = some sp →
      s.Spaced c.offset sp.start ∧ s.Solid sp ∧ s.Spaced sp.stop d.offset := by
  obtain ⟨items, hlinked, hforms, rfl, hgrown⟩ := h.linked hlevel hfirm
  cases hforms with
  | @rule _ raw sp' parts qs =>
    have hself := hgrown _ (List.mem_singleton_self _)
    rcases hself.pieces with ⟨hword, -⟩ | ⟨-, p, rfl⟩
    · rw [hword] at hplain
      cases hplain
    · refine ⟨p, rfl, fun sp hsp => ?_⟩
      obtain rfl := (fits_of_grown hself p (List.mem_singleton_self _)).span? _ hsp
      exact hlinked

theorem rule (hkind : r.kind = .tree) (h : Laid s ls (.rule r) c ps d) :
    ∃ qs p text, ps = [p] ∧ Laid s ls r.body c qs d ∧
      Piece.assemble? r (trim s ⟨c.offset, d.offset⟩) text qs = some p := by
  obtain ⟨m, ts, hm, hfix, htakes, hscene⟩ := h
  obtain ⟨parts, hbody, rfl⟩ := htakes.of_rule
  rw [if_neg (by simp [hm])] at hscene
  rw [inner_tree hkind] at hbody
  obtain ⟨qs, hqs, ⟨hplain, -⟩ | ⟨-, text, -, hp⟩⟩ := piecesOf_node hscene.pieces
  · rw [kind_of_isPlainWord hplain] at hkind
    cases hkind
  · obtain ⟨p, hpiece, rfl⟩ := Option.map_eq_some_iff.1 hp
    exact ⟨qs, p, text, rfl, ⟨m, parts, hm, hfix, hbody, hscene.parts hkind hqs⟩, hpiece⟩

/-- A name. -/
theorem name (h : Laid s ls (.rule .identifier) c ps d) : ∃ n, ps = [.name n] ∧
    s.Solid ⟨c.offset, d.offset⟩ ∧ s.slice? ⟨c.offset, d.offset⟩ = some n.text.toList := by
  obtain ⟨m, ts, hm, hfix, htakes, hscene⟩ := h
  obtain ⟨parts, hbody, rfl⟩ := htakes.of_rule
  rw [if_neg (by simp [hm])] at hscene
  have hpass : passes false .identifier = true := rfl
  obtain ⟨hsolid, hgrown⟩ := grown_token rfl rfl hpass hfix nofun hbody hscene
  generalize (⟨c.offset, d.offset⟩ : Span) = sp at hgrown hsolid ⊢
  cases hgrown with
  | token _ _ _ htext _ hps =>
    obtain rfl := Option.some.inj hps
    exact ⟨_, rfl, hsolid, by simpa using htext⟩
  | tree hkind => cases hkind

/-- A loop: what holds behind nothing, and behind one more round if it held before it, holds behind
all rounds. -/
theorem many {R : List Piece → Nat → Prop} {o : Nat} (h : Laid s ls (.many x) c ps d)
    (hnil : R [] o) (hfirst : s.Spaced o c.offset)
    (hstep : ∀ {done qs : List Piece} {e : Nat} {c mid : Cursor}, R done e → s.Spaced e c.offset →
      Laid s ls x c qs mid → R (done ++ qs) mid.offset) :
    ∃ e, R ps e ∧ s.Spaced e d.offset := by
  have hfurther : ∀ {m : Mode} {k : Trial Rule} {c d : Cursor} {ts : List (Derivation Rule)}
      {done ps : List Piece}, Takes Rule.grammar m k c ts d → k = .further x → m.token = false →
      Scene s ls c ts ps d → R done c.offset → R (done ++ ps) d.offset := by
    intro m k c d ts done ps htakes hk hm hscene hdone
    induction htakes generalizing done ps with
    | done =>
      obtain rfl : ps = [] := by simpa [piecesOfAll] using hscene.pieces.symm
      simpa using hdone
    | @again m x' c trees mid others d hx h _ ih =>
      cases hk
      obtain ⟨qs, rs, rfl, hxscene, hrest, hspaced⟩ := hscene.again hm hx h
      have hround := hstep hdone hspaced ⟨m, trees, hm, gap_gap hm c, hx, hxscene⟩
      simpa using ih rfl hm hrest hround
    | _ => cases hk
  obtain ⟨m, ts, hm, hfix, htakes, hscene⟩ := h
  cases htakes with
  | never =>
    obtain rfl : ps = [] := by simpa [piecesOfAll] using hscene.pieces.symm
    exact ⟨o, hnil, hfirst⟩
  | @many _ _ _ first mid others _ hx h =>
    obtain ⟨u, hu⟩ := hx.reaches
    obtain ⟨qs, rs, rfl, hxscene, hrest⟩ := hscene.append hu hx.inOrder h.inOrder
    have hround := hstep hnil hfirst ⟨m, first, hm, hfix, hx, hxscene⟩
    obtain ⟨v, hv⟩ := h.reaches
    exact ⟨d.offset, hfurther h rfl hm hrest hround, .refl (hv.on hrest.on).boundary⟩

end Laid

/-! ## Reading a match -/

open Outline (Reads)

/-- Read from `o`, an outline ends where the next token is the one at `c`. -/
def Nears (s : Source) (m : Outline) (o c : Nat) : Prop :=
  ∃ e, Reads s m o e ∧ s.skipSpace false e = s.skipSpace false c

def Ends (s : Source) (m : Outline) (o d : Nat) : Prop :=
  ∃ e, Reads s m o e ∧ s.skipSpaceBack e = e ∧ s.Spaced e d

namespace Ends

variable {m : Outline} {o d d' : Nat}

theorem spaced (h : Ends s m o d) (hd : s.Spaced d d') : Ends s m o d' := by
  obtain ⟨e, hreads, hback, hspaced⟩ := h
  exact ⟨e, hreads, hback, hspaced.trans hd⟩

theorem nears (h : Ends s m o d) : Nears s m o d := by
  obtain ⟨e, hreads, -, hspaced⟩ := h
  exact ⟨e, hreads, (Source.skipSpace_eq_of_inGap hspaced.inGap).symm⟩

/-- The outline ends with the last token before `d`. -/
theorem reads (h : Ends s m o d) : Reads s m o (s.skipSpaceBack d) := by
  obtain ⟨e, hreads, hback, hspaced⟩ := h
  rw [hspaced.back, hback]
  exact hreads

end Ends

namespace Nears

variable {m : Outline} {o c : Nat}

theorem spaced {c' : Nat} (h : Nears s m o c) (hc : s.Spaced c c') : Nears s m o c' := by
  obtain ⟨e, hreads, hnext⟩ := h
  exact ⟨e, hreads, hnext.trans (Source.skipSpace_eq_of_inGap hc.inGap).symm⟩

theorem token {sp : Span} (h : Nears s m o sp.start) (hsolid : s.Solid sp)
    (htext : s.slice? sp = some t.toList) : Ends s (m ++ [Mark.token t]) o sp.stop := by
  obtain ⟨e, hreads, hnext⟩ := h
  obtain ⟨⟨r, hrest⟩, hstop⟩ := Source.exists_rest_of_slice? htext
  refine ⟨sp.stop, Outline.reads_append.2 ⟨e, hreads, Outline.reads_token.2
    ⟨hreads.boundary, ?_, ?_⟩⟩, hsolid.stop, .refl hsolid.right⟩
  · rw [hnext, hsolid.start]
    exact Outline.hasAt_iff.2 ⟨r, hrest⟩
  · rw [hnext, hsolid.start, hstop]

theorem node {sp : Span} {body : Outline} (h : Nears s m o sp.start) (hsolid : s.Solid sp)
    (hbody : Reads s (Outline.framed sp body) sp.start sp.stop) :
    Ends s (m ++ Outline.framed sp body) o sp.stop := by
  obtain ⟨e, hreads, hnext⟩ := h
  obtain ⟨-, -, hinner, -⟩ := Outline.reads_framed.1 hbody
  refine ⟨sp.stop, Outline.reads_append.2 ⟨e, hreads, Outline.reads_framed.2
    ⟨hreads.boundary, ?_, hinner, rfl⟩⟩, hsolid.stop, .refl hsolid.right⟩
  rw [hnext, hsolid.start]

end Nears

def Readable (s : Source) (t : Ty) : Prop := Reads s (Outline.ofType t) t.span.start t.span.stop

theorem intercalate_cons {α : Type} (sep a : List α) (as : List (List α)) :
    sep.intercalate (a :: as) = a ++ as.flatMap (sep ++ ·) := by
  induction as generalizing a with
  | nil => simp
  | cons b as ih => rw [List.intercalate_cons_cons, ih, List.flatMap_cons]; simp

theorem mapM_map {α : Type} {f : Piece → Option α} {g : α → Piece} (h : ∀ a, f (g a) = some a)
    (as : List α) : (as.map g).mapM f = some as := by
  induction as with
  | nil => rfl
  | cons a as ih => simp [h, ih]

namespace Laid

variable {c d : Cursor} {ps : List Piece} {m : Outline} {o : Nat}

theorem ends_text (hfirm : firm (.text t) = true) (hcalm : level false (.text t) = true)
    (h : Laid s ls (.text t) c ps d) (hm : Nears s m o c.offset) :
    ps = [] ∧ Ends s (m ++ [Mark.token t]) o d.offset := by
  obtain ⟨rfl, hsolid, htext⟩ := h.word hfirm hcalm
  have hm : Nears s m o (Span.mk c.offset d.offset).start := hm
  exact ⟨rfl, hm.token hsolid htext⟩

theorem ends_name (h : Laid s ls (.rule .identifier) c ps d) (hm : Nears s m o c.offset) :
    ∃ n, ps = [.name n] ∧ Ends s (m ++ [Mark.token n.text]) o d.offset := by
  obtain ⟨n, rfl, hsolid, htext⟩ := h.name
  have hm : Nears s m o (Span.mk c.offset d.offset).start := hm
  exact ⟨n, rfl, hm.token hsolid htext⟩

/-- A dotted name. -/
theorem ends_path {ns : List SimpleName} (h : Laid s ls (Rule.body .qualifiedName) c ps d)
    (hns : ps.mapM Piece.name? = some ns) (hm : Nears s m o c.offset) : ns ≠ [] ∧
      Ends s (m ++ [Mark.token "."].intercalate (ns.map fun n => [.token n.text])) o d.offset := by
  obtain ⟨qs, rs, mid, mid', rfl, hfirst, hspaced, hrest⟩ := h.seq
  obtain ⟨n, rfl, hends⟩ := hfirst.ends_name hm
  let R : List Piece → Nat → Prop := fun done e => ∃ ns' : List SimpleName, done = ns'.map .name ∧
    Ends s (m ++ [Mark.token n.text] ++ ns'.flatMap fun x => [Mark.token ".", .token x.text]) o e
  have hloop : ∃ e, R rs e ∧ s.Spaced e d.offset := by
    refine hrest.many ⟨[], rfl, by simpa using hends⟩ hspaced ?_
    rintro done qs e c mid ⟨ns', rfl, hends⟩ hspaced hround
    obtain ⟨qs, rs, x, x', rfl, hdot, hgap, hname⟩ := hround.seq
    obtain ⟨rfl, hdotted⟩ := hdot.ends_text rfl rfl (hends.spaced hspaced).nears
    obtain ⟨n', rfl, hnamed⟩ := hname.ends_name (hdotted.spaced hgap).nears
    exact ⟨ns' ++ [n'], by simp, by simpa using hnamed⟩
  obtain ⟨e, ⟨ns', rfl, hends⟩, hspaced⟩ := hloop
  obtain rfl : n :: ns' = ns :=
    Option.some.inj ((mapM_map (f := Piece.name?) (fun _ => rfl) (n :: ns')).symm.trans hns)
  refine ⟨by simp, ?_⟩
  rw [List.map_cons, intercalate_cons]
  simpa [List.flatMap_map] using hends.spaced hspaced

theorem ends_type {t : Ty} (ht : Readable s t) (hsolid : s.Solid t.span)
    (hm : Nears s m o t.span.start) : Ends s (m ++ Outline.ofType t) o t.span.stop := by
  obtain ⟨body, hbody⟩ := Outline.ofType_framed t
  unfold Readable at ht
  rw [hbody] at ht ⊢
  exact hm.node hsolid ht

/-- One type argument. -/
theorem argument (h : Laid s ls (.rule .javaType) c ps d) : ∃ t, ps = [.type t] ∧
    ∀ {m o}, Nears s m o c.offset → Readable s t → Ends s (m ++ Outline.ofType t) o d.offset := by
  obtain ⟨qs, p, text, rfl, -, hp⟩ := h.rule rfl
  obtain ⟨t, -, rfl⟩ := Option.map_eq_some_iff.1
    (show (Piece.javaType? (trim s ⟨c.offset, d.offset⟩) qs).map Piece.type = some p from hp)
  obtain ⟨_, hone, hspan⟩ := h.piece rfl rfl rfl
  obtain rfl := List.singleton_inj.1 hone
  obtain ⟨hstart, hsolid, hstop⟩ := hspan t.span rfl
  exact ⟨t, rfl, fun hm ht => (ends_type ht hsolid (hm.spaced hstart)).spaced hstop⟩

/-- A list of type arguments in angle brackets. -/
theorem ends_arguments {ts : List Ty} (h : Laid s ls (Rule.body .typeArguments) c ps d)
    (hts : ps.mapM Piece.type? = some ts) (hreadable : ∀ t ∈ ts, Readable s t)
    (hm : Nears s m o c.offset) :
    Ends s (m ++ [Mark.token "<"] ++ Outline.commaList (Outline.ofTypes ts) ++ [Mark.token ">"]) o
      d.offset := by
  obtain ⟨_, _, x, x', rfl, hopen, hgap, hinner⟩ := h.seq
  obtain ⟨rfl, hopened⟩ := hopen.ends_text rfl rfl hm
  obtain ⟨_, _, y, y', rfl, hfirst, hgap', htail⟩ := hinner.seq
  obtain ⟨t, rfl, hends⟩ := hfirst.argument
  obtain ⟨qs, _, z, z', rfl, hrest, hgap'', hclose⟩ := htail.seq
  let R : List Piece → Nat → Prop := fun done e => ∃ ts' : List Ty, done = ts'.map .type ∧
    ((∀ t' ∈ t :: ts', Readable s t') → Ends s (m ++ [Mark.token "<"] ++ Outline.ofType t
      ++ ts'.flatMap fun t' => .token "," :: Outline.ofType t') o e)
  have hloop : ∃ e, R qs e ∧ s.Spaced e z.offset := by
    refine hrest.many ⟨[], rfl, fun hall => ?_⟩ hgap' ?_
    · simpa using hends (hopened.spaced hgap).nears (hall t (by simp))
    · rintro done qs e c mid ⟨ts', rfl, hdone⟩ hspaced hround
      obtain ⟨_, _, w, w', rfl, hcomma, hgap, hargument⟩ := hround.seq
      obtain ⟨t', rfl, hargued⟩ := hargument.argument
      obtain ⟨rfl, -⟩ := hcomma.word rfl rfl
      refine ⟨ts' ++ [t'], by simp, fun hall => ?_⟩
      have hbefore := hdone fun u hu => hall u (List.mem_append_left [t'] hu)
      obtain ⟨-, hends⟩ := hcomma.ends_text rfl rfl (hbefore.spaced hspaced).nears
      simpa using hargued (hends.spaced hgap).nears (hall t' (by simp))
  obtain ⟨e, ⟨ts', rfl, hdone⟩, hspaced⟩ := hloop
  obtain ⟨rfl, -⟩ := hclose.word rfl rfl
  obtain rfl : t :: ts' = ts :=
    Option.some.inj ((mapM_map (f := Piece.type?) (fun _ => rfl) (t :: ts')).symm.trans
      (by simpa using hts))
  have hbefore := (hdone hreadable).spaced (hspaced.trans hgap'')
  obtain ⟨-, hclosed⟩ := hclose.ends_text rfl rfl hbefore.nears
  simpa [Outline.ofTypes_eq, Outline.commaList, List.flatMap_map] using hclosed

/-- A class with type arguments. -/
theorem ends_generic {n : Name} {ts : List Ty}
    (h : Laid s ls (Rule.body .classType) c [.path n, .types r ts] d)
    (hbase : Readable s (.simple ⟨n.span, n⟩)) (hreadable : ∀ t ∈ ts, Readable s t)
    (hm : Nears s m o c.offset) :
    Ends s (m ++ Outline.ofSimpleType ⟨n.span, n⟩ ++ [Mark.token "<"]
      ++ Outline.commaList (Outline.ofTypes ts) ++ [Mark.token ">"]) o d.offset := by
  obtain ⟨qs, rs, mid, mid', hps, hpath, hgap, hopt⟩ := h.seq
  obtain ⟨p, rfl, hspan⟩ := hpath.piece rfl rfl rfl
  obtain ⟨rfl, rfl⟩ := List.cons.inj hps
  obtain ⟨hstart, hsolid, hstop⟩ := hspan n.span rfl
  have hnamed : Ends s (m ++ Outline.ofType (.simple ⟨n.span, n⟩)) o mid.offset :=
    (ends_type hbase hsolid (hm.spaced hstart)).spaced hstop
  rcases hopt.opt with ⟨hnone, -⟩ | hargs
  · cases hnone
  · obtain ⟨us, q, text, hone, hbody, hq⟩ := hargs.rule rfl
    obtain ⟨ts', hts', rfl⟩ := Option.map_eq_some_iff.1
      (show (us.mapM Piece.type?).map (.types .typeArguments) = some q from hq)
    obtain ⟨-, rfl⟩ : r = .typeArguments ∧ ts = ts' := by simpa using hone
    exact hbody.ends_arguments hts' hreadable (hnamed.spaced hgap).nears

end Laid

/-! ## Every type -/

/-- If the node is an array type, behind its element stand as many pairs of brackets as it has
dimensions, and it ends with the last of them. -/
def Bracketed (s : Source) (n : Node) : Prop :=
  ∀ span el k, n = .type (.array span el k) → Reads s (Outline.brackets k) el.span.stop span.stop

/-- Reading what is in a span. -/
theorem reads_framed_of_ends {c d : Nat} {sp : Span} {body : Outline} (hsolid : s.Solid sp)
    (hstart : s.Spaced c sp.start) (hstop : s.Spaced sp.stop d)
    (h : ∀ {m : Outline}, Nears s m sp.start c → Ends s (m ++ body) sp.start d) :
    Reads s (Outline.framed sp body) sp.start sp.stop := by
  have hnears : Nears s [] sp.start c := by
    refine ⟨sp.start, Outline.reads_nil.2 ⟨hsolid.left, rfl⟩, ?_⟩
    exact (Source.skipSpace_eq_of_inGap hstart.inGap)
  have hreads := (h hnears).reads
  rw [List.nil_append, hstop.back, hsolid.stop] at hreads
  exact Outline.reads_framed.2 ⟨hsolid.left, hsolid.start.symm, hreads, rfl⟩

theorem mem_subtreesAll_append {t : Derivation Rule} {ts us : List (Derivation Rule)}
    (h : t ∈ Derivation.subtreesAll (ts ++ us)) :
    t ∈ Derivation.subtreesAll ts ∨ t ∈ Derivation.subtreesAll us := by
  simpa [Derivation.subtreesAll_eq, List.flatMap_append] using h

theorem node_not_mem_gapLeaves (m : Mode) (c : Cursor) :
    .node r raw parts ∉ Derivation.subtreesAll (m.gapLeaves c) := by
  intro hmem
  simp only [Derivation.subtreesAll_eq, List.mem_flatMap] at hmem
  obtain ⟨t, ht, hmem⟩ := hmem
  obtain ⟨sp, -, rfl⟩ := List.mem_map.1 ht
  simp [Derivation.subtrees] at hmem

/-- Every node of a derivation is a match of its rule in its text. -/
theorem laid_of_subtree {m : Mode} {k : Trial Rule} {c d : Cursor} {ts : List (Derivation Rule)}
    (hm : m.token = false) (h : Takes Rule.grammar m k c ts d)
    (hfix : ∀ e, k = .once e → gap c = ([], c)) (hscene : Scene s ls c ts ps d)
    (hr : r.kind = .tree) (hmem : .node r raw parts ∈ Derivation.subtreesAll ts) :
    ∃ c' d' qs, raw = ⟨c'.offset, d'.offset⟩ ∧ piecesOfAll s parts = some qs ∧
      Laid s ls r.body c' qs d' := by
  induction h generalizing ps with
  | word | words | one =>
    simp [Mode.leaf, hm, Derivation.subtreesAll, Derivation.subtrees] at hmem
  | startOfText | endOfText | absent | never | ahead | notAhead | done => cases hmem
  | @rule m r' c parts' d h ih =>
    rw [if_neg (by simp [hm])] at hscene hmem
    simp only [Derivation.subtreesAll, Derivation.subtrees, List.append_nil, List.mem_cons] at hmem
    cases hkind : r'.kind with
    | token =>
      obtain rfl := Takes.nil_of_token (inner_token hkind) h
      rcases hmem with heq | hmem
      · cases heq
        rw [hkind] at hr
        cases hr
      · cases hmem
    | tree =>
      rw [inner_tree hkind] at h ih
      obtain ⟨qs, hqs, -⟩ := piecesOf_node hscene.pieces
      have hinner := hscene.parts hkind hqs
      rcases hmem with heq | hmem
      · cases heq
        exact ⟨c, d, qs, rfl, hqs, m, _, hm, hfix _ rfl, h, hinner⟩
      · exact ih hm (fun _ _ => hfix _ rfl) hinner hmem
  | left _ ih | right _ _ ih | present _ ih => exact ih hm (fun _ _ => hfix _ rfl) hscene hmem
  | @seq m x y c before mid behind d hx hy ihx ihy =>
    obtain ⟨u, hu⟩ := hx.reaches
    obtain ⟨qs, rs, rfl, hxscene, hyscene, -⟩ := hscene.seq hm hu hx.inOrder hy.inOrder
    rcases mem_subtreesAll_append hmem with hmem | hmem
    · rcases mem_subtreesAll_append hmem with hmem | hmem
      · exact ihx hm (fun _ _ => hfix _ rfl) hxscene hmem
      · exact absurd hmem (node_not_mem_gapLeaves _ _)
    · exact ihy hm (fun _ _ => gap_gap hm mid) hyscene hmem
  | @many m x c first mid others d hx h ihx ih =>
    obtain ⟨u, hu⟩ := hx.reaches
    obtain ⟨qs, rs, rfl, hxscene, hrest⟩ := hscene.append hu hx.inOrder h.inOrder
    rcases mem_subtreesAll_append hmem with hmem | hmem
    · exact ihx hm (fun _ _ => hfix _ rfl) hxscene hmem
    · exact ih hm (by rintro _ ⟨⟩) hrest hmem
  | @again m x c trees mid others d hx h ihx ih =>
    obtain ⟨qs, rs, rfl, hxscene, hrest, -⟩ := hscene.again hm hx h
    rcases mem_subtreesAll_append hmem with hmem | hmem
    · rcases mem_subtreesAll_append hmem with hmem | hmem
      · exact absurd hmem (node_not_mem_gapLeaves _ _)
      · exact ihx hm (fun _ _ => gap_gap hm c) hxscene hmem
    · exact ih hm (by rintro _ ⟨⟩) hrest hmem

/-- What is to be shown of a node: a type is read where it stands if its pairs of brackets are as
many as the tree has it. -/
def Legible (s : Source) (ls : List (Lexeme Rule)) (n : Node) : Prop :=
  ∀ ty, n = .type ty → Sound s ls n → n.All (Bracketed s) → Readable s ty

section Kinds

variable {c d : Cursor} {ps : List Piece} {span : Span}

theorem readable_primitive {k : Primitive} (h : Good s ls (.type (.primitive span k))) :
    Readable s (.primitive span k) := by
  have hsolid : s.Solid span := h.solid
  refine reads_framed_of_ends hsolid (.refl hsolid.left) (.refl hsolid.right) fun hm => ?_
  exact hm.token hsolid (h.word rfl)

theorem readable_simple {ns : List SimpleName} (h : Laid s ls (Rule.body .qualifiedName) c ps d)
    (hns : ps.mapM Piece.name? = some ns) :
    Readable s (.simple ⟨trim s ⟨c.offset, d.offset⟩, ⟨trim s ⟨c.offset, d.offset⟩, ns⟩⟩) := by
  obtain ⟨hsolid, hstart, hstop⟩ := h.node .qualifiedName rfl nofun nofun
  refine reads_framed_of_ends hsolid hstart hstop fun {m} hm => ?_
  obtain ⟨e, hreads, hnext⟩ := hm
  have hne : ns ≠ [] := (h.ends_path hns ⟨e, hreads, hnext⟩).1
  have hdemand : Nears s (m ++ [Mark.demand (!ns.isEmpty)]) (trim s ⟨c.offset, d.offset⟩).start
      c.offset :=
    ⟨e, Outline.reads_append.2 ⟨e, hreads, Outline.reads_singleton.2
      ⟨hreads.boundary, by simp [Mark.follow, hne]⟩⟩, hnext⟩
  simpa [Outline.ofPath] using (h.ends_path hns hdemand).2

theorem readable_array {el : Ty} {k n : Nat}
    (h : Laid s ls (Rule.body .javaType) c [.type el, .dims n] d) (hel : Readable s el)
    (hbrackets : Reads s (Outline.brackets k) el.span.stop (trim s ⟨c.offset, d.offset⟩).stop) :
    Readable s (.array (trim s ⟨c.offset, d.offset⟩) el k) := by
  obtain ⟨hsolid, hstart, -⟩ := h.node .javaType rfl nofun nofun
  obtain ⟨qs, rs, mid, mid', hps, hfirst, -, -⟩ := h.seq
  obtain ⟨p, rfl, hspan⟩ : ∃ p, qs = [p] ∧ ∀ sp, p.span? = some sp →
      s.Spaced c.offset sp.start ∧ s.Solid sp ∧ s.Spaced sp.stop mid.offset := by
    rcases hfirst.alt with hfirst | hfirst
    · exact hfirst.piece rfl rfl rfl
    · exact hfirst.piece rfl rfl rfl
  obtain ⟨rfl, -⟩ := List.cons.inj hps
  obtain ⟨hbegin, hsolid', -⟩ := hspan el.span rfl
  have hsame : (trim s ⟨c.offset, d.offset⟩).start = el.span.start := by
    rw [← hsolid.start, ← hsolid'.start, Source.skipSpace_eq_of_inGap hstart.inGap,
      Source.skipSpace_eq_of_inGap hbegin.inGap]
  refine Outline.reads_framed.2 ⟨hsolid.left, hsolid.start.symm, ?_, rfl⟩
  exact Outline.reads_append.2 ⟨el.span.stop, hsame ▸ hel, hbrackets⟩

theorem readable_generic {n : Name} {ts : List Ty}
    (h : Laid s ls (Rule.body .classType) c [.path n, .types r ts] d)
    (hbase : Readable s (.simple ⟨n.span, n⟩)) (hts : ∀ t ∈ ts, Readable s t) :
    Readable s (.generic (trim s ⟨c.offset, d.offset⟩) ⟨n.span, n⟩ ts) := by
  obtain ⟨hsolid, hstart, hstop⟩ := h.node .classType rfl nofun nofun
  refine reads_framed_of_ends hsolid hstart hstop fun hm => ?_
  simpa using h.ends_generic hbase hts hm

end Kinds

/-- The tree rule that a type comes from. -/
theorem Sprung.eq_rule {r' : Rule} {text : List Char} {n : Node}
    (h : Sprung s r raw parts text ps n) (hr : n.rule? = some r') (hkind : r'.kind = .tree) :
    r = r' := by
  obtain ⟨hsame, hrule⟩ := h.rule r' hr
  exact (hrule (hsame ▸ hkind)).symm

/-- A type that a match was made into is legible if the types in it are. -/
theorem legible_of_sprung {text : List Char} {n : Node} (hn : Sprung s r raw parts text ps n)
    (hlaid : r.kind = .tree → r ≠ .compilationUnit →
      ∃ c d, raw = ⟨c.offset, d.offset⟩ ∧ Laid s ls r.body c ps d)
    (hparts : ∀ q ∈ ps, ∀ m ∈ q.nodes, m.All (Legible s ls)) : Legible s ls n := by
  rintro ty rfl hsound hbrackets
  obtain ⟨p, hp, hnode⟩ := hn.made
  have hchild : ∀ {q : Piece} {t : Ty}, q ∈ ps → .type t ∈ q.nodes →
      .type t ∈ (Node.type ty).children → Readable s t :=
    fun hq ht hc => (hparts _ hq _ ht).self _ rfl (hsound.child hc) (hbrackets.child hc)
  cases ty with
  | primitive span k => exact readable_primitive hsound.self
  | simple t =>
    obtain rfl := hn.eq_rule rfl rfl
    obtain ⟨c, d, rfl, hbody⟩ := hlaid rfl nofun
    obtain ⟨ns, hns, rfl⟩ := Option.map_eq_some_iff.1 (show (ps.mapM Piece.name?).map
      (fun ns => Piece.path ⟨trim s ⟨c.offset, d.offset⟩, ns⟩) = some p from hp)
    cases hnode
    exact readable_simple hbody hns
  | array span el k =>
    obtain rfl := hn.eq_rule rfl rfl
    obtain ⟨c, d, rfl, hbody⟩ := hlaid rfl nofun
    obtain ⟨ty, hty, rfl⟩ := Option.map_eq_some_iff.1
      (show (Piece.javaType? (trim s ⟨c.offset, d.offset⟩) ps).map Piece.type = some p from hp)
    cases hnode
    obtain ⟨rfl, rfl⟩ := Piece.of_javaType?_array (hn.children nofun) hty
    have hel := hchild (q := .type el) (t := el) (by simp) (by simp [Piece.nodes])
      (by simp [Node.children, Node.childrenOfType])
    exact readable_array hbody hel (hbrackets.self _ el k rfl)
  | generic span base arguments =>
    obtain rfl := hn.eq_rule rfl rfl
    obtain ⟨c, d, rfl, hbody⟩ := hlaid rfl nofun
    obtain ⟨ty, hty, rfl⟩ := Option.map_eq_some_iff.1
      (show (Piece.classType? (trim s ⟨c.offset, d.offset⟩) ps).map Piece.type = some p from hp)
    cases hnode
    unfold Piece.classType? at hty
    split at hty
    · cases hty
    · cases hty
      refine readable_generic hbody ?_ fun t ht => ?_
      · exact hchild List.mem_cons_self (by simp [Piece.nodes])
          (by simp [Node.children, Node.childrenOfType])
      · exact hchild (List.mem_cons_of_mem _ List.mem_cons_self) (by simp [Piece.nodes, ht])
          (by simp [Node.children, Node.childrenOfType, ht])
    · cases hty

/-- A node of a unit other than the unit is a match of its rule. -/
theorem laid_of_derivation {t : Derivation Rule} {u : CompilationUnit} (h : derivation? s = some t)
    (htable : s.comments = commentsOf (Rule.grammar.lexemes t))
    (hu : CompilationUnit.ofDerivation? s t = some u) (hmem : .node r raw parts ∈ t.subtrees)
    (hps : piecesOfAll s parts = some ps) (hkind : r.kind = .tree) (hunit : r ≠ .compilationUnit) :
    ∃ c d, raw = ⟨c.offset, d.offset⟩ ∧ Laid s (Rule.grammar.lexemes t) r.body c ps d := by
  obtain ⟨all, _, d, rfl, hall, hscene, -⟩ := scene_of_derivation h htable hu
  have hmem : .node r raw parts ∈ Derivation.subtreesAll all := by
    rw [Derivation.subtrees, List.mem_cons] at hmem
    refine hmem.resolve_left fun heq => hunit ?_
    cases heq
    rfl
  cases hall with
  | seq hstart hrest =>
    cases hstart
    obtain ⟨_, _, rfl, -, hscene, -⟩ := hscene.seq rfl (.refl _) (Nat.le_refl _) hrest.inOrder
    rw [List.nil_append] at hmem
    rcases mem_subtreesAll_append hmem with hmem | hmem
    · exact absurd hmem (node_not_mem_gapLeaves _ _)
    · obtain ⟨c, d, qs, rfl, hqs, hlaid⟩ :=
        laid_of_subtree rfl hrest (fun _ _ => gap_gap rfl _) hscene hkind hmem
      obtain rfl := Option.some.inj (hqs.symm.trans hps)
      exact ⟨c, d, rfl, hlaid⟩

theorem sound_of_type {t : Derivation Rule} {u : CompilationUnit} (h : derivation? s = some t)
    (htable : s.comments = commentsOf (Rule.grammar.lexemes t))
    (hu : CompilationUnit.ofDerivation? s t = some u) {ty : Ty}
    (hty : .type ty ∈ (Node.unit u).descendants) :
    Sound s (Rule.grammar.lexemes t) (.type ty) := by
  rw [Node.descendants_eq, List.mem_cons, List.mem_flatMap] at hty
  obtain hself | ⟨c, hc, hty⟩ := hty
  · cases hself
  · exact ((sound_of_derivation h htable hu).2 c hc).below hty

/-- A type of a unit can be read where it stands if its pairs of brackets can. -/
theorem readable_of_derivation {t : Derivation Rule} {u : CompilationUnit} (h : derivation? s = some t)
    (htable : s.comments = commentsOf (Rule.grammar.lexemes t))
    (hu : CompilationUnit.ofDerivation? s t = some u) {ty : Ty}
    (hty : .type ty ∈ (Node.unit u).descendants) (hbrackets : (Node.type ty).All (Bracketed s)) :
    Readable s ty := by
  have hinherited : Inherited s t.subtrees (Legible s (Rule.grammar.lexemes t)) := by
    refine ⟨?_, fun hmem hn hparts => ?_⟩
    · rintro n hn ty rfl
      cases ty with
      | primitive span k => cases k <;> cases hn
      | simple | array | generic => cases hn
    · exact legible_of_sprung hn (laid_of_derivation h htable hu hmem hn.pieces) hparts
  have hall : (Node.unit u).All (Legible s (Rule.grammar.lexemes t)) :=
    all_of_piecesOf hinherited t (fun _ h => h) (piecesOf_of_ofDerivation? hu) (.unit u) (by simp) _
      (by simp [Piece.nodes])
  exact hall _ hty ty rfl (sound_of_type h htable hu hty) hbrackets

end Transcribe.Java

/-! ## Types that are written -/

namespace Transcribe

open Text (Span Source byteLength)
open Java (Ty Name Node Bracketed)
open Target (Profile)
open Outline (Reads)

theorem Script.ofType_framed (p : Profile) (t : Ty) : ∃ body, ofType p t = framed t.span body := by
  cases t <;> exact ⟨_, rfl⟩

namespace Job

variable {j : Job} {a b : Pen} {r r' : Script}

/-- A part of a script that was run was run. -/
theorem exists_run_of_infix (hpart : r <:+: r') (h : j.run r' a = .ok b) :
    ∃ c d, j.run r c = .ok d := by
  obtain ⟨front, back, rfl⟩ := hpart
  obtain ⟨d, hfront, -⟩ := run_append_eq_ok.1 h
  obtain ⟨c, -, hr⟩ := run_append_eq_ok.1 hfront
  exact ⟨c, d, hr⟩

/-- A node is written from its start to its end. -/
theorem run_framed {span : Span} {body : Script} (hbody : body.all Stroke.isPlain = true)
    (h : j.run (Script.framed span body) a = .ok b) : a.position = span.start ∧
      b.position = span.stop ∧ ∃ c d, c.position = span.start ∧ d.position = span.stop ∧
        j.run body c = .ok d := by
  obtain ⟨c, hc, hrest⟩ := run_cons_eq_ok.1 h
  obtain ⟨d, hd, hleave⟩ := run_append_eq_ok.1 hrest
  obtain ⟨hstart, rfl⟩ := enter_eq_ok.1 hc
  rw [run_singleton] at hleave
  obtain ⟨rfl, hstop⟩ := leave_eq_ok hleave
  have hstop := hstop (trailing_run hbody hd rfl)
  exact ⟨hstart, hstop, a.entered, d, hstart, hstop, hd⟩

theorem run_type {t : Ty} (h : j.run (Script.ofType p t) a = .ok b) :
    a.position = t.span.start ∧ b.position = t.span.stop := by
  obtain ⟨body, hbody⟩ := Script.ofType_framed p t
  have hplain := Script.plain_ofType p t
  rw [hbody] at h hplain
  have hplain : body.all Stroke.isPlain = true := by
    simpa [Script.framed, Stroke.isPlain] using hplain
  obtain ⟨hstart, hstop, -⟩ := run_framed hplain h
  exact ⟨hstart, hstop⟩

theorem run_marked {t : Ty} (h : j.run (Script.ofMarkedType p t) a = .ok b) :
    b.position = t.span.stop := by
  rw [Script.ofMarkedType, Script.marked] at h
  split at h
  · obtain ⟨c, hc, hmark⟩ := run_append_eq_ok.1 h
    cases hmark
    exact (run_type hc).2
  · exact (run_type h).2

theorem reads_of_drop (hb : j.source.Boundary a.position)
    (h : j.run [.skipSpace, .drop t] a = .ok b) :
    Reads j.source [.token t] a.position b.position := by
  obtain ⟨c, hc, hdrop⟩ := run_cons_eq_ok.1 h
  cases hc
  rw [run_singleton] at hdrop
  obtain ⟨⟨cs, hcs⟩, rfl⟩ := swap_ok hdrop
  exact Outline.reads_token.2 ⟨hb, Outline.hasAt_iff.2 ⟨cs, hcs⟩, rfl⟩

/-- Arrays are closed along their pairs of brackets. -/
theorem reads_of_closeArrays (p : Profile) {n : Nat} (hb : j.source.Boundary a.position)
    (h : j.run (Script.closeArrays p n) a = .ok b) :
    Reads j.source (Outline.brackets n) a.position b.position := by
  have hpair : ∀ {a b : Pen}, j.source.Boundary a.position →
      j.run [.skipSpace, .drop "[", .skipSpace, .drop "]", .write ">"] a = .ok b →
      Reads j.source [.token "[", .token "]"] a.position b.position := by
    intro a b hb h
    obtain ⟨c, hopen, hrest⟩ := run_append_eq_ok (r := [.skipSpace, .drop "["]).1 h
    obtain ⟨d, hclose, hwrite⟩ := run_append_eq_ok (r := [.skipSpace, .drop "]"]).1 hrest
    cases hwrite
    have hopened := reads_of_drop hb hopen
    have hclosed := reads_of_drop hopened.boundary hclose
    exact Outline.reads_cons.2 ⟨_, hopened, hclosed⟩
  induction n generalizing a with
  | zero =>
    cases h
    exact Outline.reads_nil.2 ⟨hb, rfl⟩
  | succ n ih =>
    cases n with
    | zero => simpa [Outline.brackets] using hpair hb h
    | succ n =>
      rw [Script.closeArrays_succ] at h
      obtain ⟨d, hfront, hrest⟩ := run_append_eq_ok.1 h
      obtain ⟨c, hfirst, hmark⟩ := run_append_eq_ok.1 hfront
      cases hmark
      have hreads := hpair hb hfirst
      exact Outline.reads_append.2 ⟨_, hreads, ih (a := c.write p.marker) hreads.boundary hrest⟩

/-- An array type is written only if its pairs of brackets are there. -/
theorem reads_of_array (hcpp : p.isCpp = true) {span : Span} {el : Ty} {k : Nat}
    (hb : j.source.Boundary el.span.stop) (h : j.run (Script.ofType p (.array span el k)) a = .ok b) :
    Reads j.source (Outline.brackets k) el.span.stop span.stop := by
  have hplain := Script.plain_ofType p (.array span el k)
  rw [Script.ofType, if_pos hcpp] at h hplain
  obtain ⟨-, -, c, d, -, hd, hbody⟩ :=
    run_framed (by simpa [Script.framed, Stroke.isPlain] using hplain) h
  obtain ⟨x, hfront, hclose⟩ := run_append_eq_ok.1 hbody
  obtain ⟨y, -, hel⟩ := run_append_eq_ok.1 hfront
  have hx := run_marked hel
  rw [← hx] at hb ⊢
  rw [← hd]
  exact reads_of_closeArrays p hb hclose

end Job

namespace Script

theorem infix_framed (span : Span) (body : Script) : body <:+: framed span body :=
  ⟨[.enter span], [.leave span], rfl⟩

theorem infix_marked (p : Profile) (t : Ty) (r : Script) : r <:+: marked p t r := by
  rw [marked]
  split
  · exact (List.prefix_append _ _).isInfix
  · exact List.infix_rfl

theorem infix_commaList {r : Script} {rs : List Script} (h : r ∈ rs) : r <:+: commaList rs := by
  cases rs with
  | nil => cases h
  | cons first rest =>
    rw [commaList]
    rcases List.mem_cons.1 h with rfl | h
    · exact List.infix_append [.copySpace] r _
    · let item : Script → Script := fun x => token "," ++ .copySpace :: x
      have hr : r <:+: item r := ⟨token "," ++ [Stroke.copySpace], [], by simp [item]⟩
      have hitem : item r <:+: (rest.map item).flatten :=
        List.infix_of_mem_flatten (List.mem_map_of_mem h)
      rw [← List.flatMap_def] at hitem
      exact (hr.trans hitem).trans (List.suffix_append _ _).isInfix

/-- The script of a type holds the scripts of the types in it. -/
theorem infix_ofType (hcpp : p.isCpp = true) {t : Ty} {n : Node}
    (hn : n ∈ (Node.type t).descendants) : ∃ u, n = .type u ∧ ofType p u <:+: ofType p t := by
  refine Outline.of_mem_descendants (P := fun n => ∃ u, n = .type u ∧ ofType p u <:+: ofType p t)
    ?_ (.type t) ⟨t, rfl, List.infix_rfl⟩ n hn
  rintro _ c ⟨u, rfl, hu⟩ hc
  suffices h : ∃ v, c = .type v ∧ ofType p v <:+: ofType p u by
    obtain ⟨v, rfl, hv⟩ := h
    exact ⟨v, rfl, hv.trans hu⟩
  cases u with
  | primitive | simple => cases hc
  | array span el k =>
    obtain rfl := List.mem_singleton.1 hc
    refine ⟨el, rfl, (infix_marked p el _).trans ?_⟩
    rw [ofType, if_pos hcpp]
    exact (List.infix_append _ _ _).trans (infix_framed span _)
  | generic span base arguments =>
    rw [ofType]
    rcases List.mem_cons.1 hc with rfl | hc
    · refine ⟨.simple base, rfl, List.IsInfix.trans ?_ (infix_framed span _)⟩
      rw [List.append_assoc, List.append_assoc]
      exact (List.prefix_append _ _).isInfix
    · obtain ⟨v, hv, rfl⟩ := List.mem_map.1 hc
      refine ⟨v, rfl, List.IsInfix.trans ?_ (infix_framed span _)⟩
      have hmem : ofMarkedType p v ∈ ofArguments p arguments := by
        rw [Tracks.ofArguments_eq]
        exact List.mem_map_of_mem hv
      exact ((infix_marked p v _).trans (infix_commaList hmem)).trans (List.infix_append _ _ _)

end Script

/-- A type is written just if its pairs of brackets are there. -/
theorem Job.exists_run_type_iff {j : Job} (hcpp : p.isCpp = true) {ty : Ty}
    (hsolid : (Node.type ty).All fun n => j.source.Solid n.span)
    (hreadable : (Node.type ty).All (Bracketed j.source) → Java.Readable j.source ty) {a : Pen}
    (ha : a.position = ty.span.start) :
    (∃ b, j.run (Script.ofType p ty) a = .ok b) ↔ (Node.type ty).All (Bracketed j.source) := by
  constructor
  · rintro ⟨b, hrun⟩ n hn span el k rfl
    obtain ⟨_, ⟨rfl⟩, hpart⟩ := Script.infix_ofType hcpp hn
    obtain ⟨c, d, harray⟩ := Job.exists_run_of_infix hpart hrun
    have hel := (hsolid.below hn).child (c := .type el)
      (by simp [Node.children, Node.childrenOfType])
    exact Job.reads_of_array hcpp hel.self.right harray
  · intro hbrackets
    have hstart : a.position = j.source.skipSpace false ty.span.start :=
      ha.trans hsolid.self.start.symm
    exact ((Tracks.ofType p ty).stoppedBy (hreadable hbrackets) hstart).exists_ok

open Java (derivation? Rule Parsed) in
open Grammar (Lexeme) in
/-- C++ types are spelled by their structure. What is written for a type of a text that was read is
its spelling with copies of space and comments of the type in between, and just the spelling if the
type has none in its span. If the table of comments is right, a type is written just if for each
array type in it there are as many pairs of brackets as the tree has dimensions. -/
theorem types_spelled {name text : String} {parsed : Parsed} (h : Java.parse name text = .ok parsed)
    {ty : Ty} (hty : .type ty ∈ (Node.unit parsed.unit).descendants) {j : Job}
    (hj : j.source = parsed.source) {s : Setting} (hcpp : s.isCpp = true) :
    (∀ a b, j.run (Script.ofNode s (.type ty)) a = .ok b →
      ∃ xs, xs = j.inks (Script.ofNode s (.type ty)) a ∧
        b.sink.text = a.sink.text ++ String.ofList (xs.flatMap Ink.text) ∧
        String.ofList (xs.flatMap Ink.word) = spelled s.profile ty ∧
        (∀ t, .copied t ∈ xs → ∃ o, ty.span.start ≤ o ∧
          j.source.skipSpace false o ≤ ty.span.stop ∧ j.Copies o t) ∧
        (j.source.Dense ty.span → b.sink.text = a.sink.text ++ spelled s.profile ty)) ∧
    ∀ t, derivation? parsed.source = some t →
      parsed.source.comments = (Rule.grammar.lexemes t).filterMap Lexeme.comment? →
      ∀ a, a.position = ty.span.start →
        ((∃ b, j.run (Script.ofNode s (.type ty)) a = .ok b) ↔
          (Node.type ty).All (Bracketed j.source)) := by
  have hplain := Script.plain_ofType s.profile ty
  constructor
  · intro a b hrun
    obtain ⟨hstart, hstop⟩ := Job.run_type hrun
    have hwords : (j.inks (Script.ofType s.profile ty) a).flatMap Ink.word
        = (spelled s.profile ty).toList := by
      rw [Job.words_of_run hplain hrun, words_ofType hcpp ty ((Java.proper_of_parse h).below hty)]
    refine ⟨_, rfl, Job.text_of_run hrun, ?_, fun t ht => ?_, fun hdense => ?_⟩
    · exact (congrArg String.ofList hwords).trans String.ofList_toList
    · obtain ⟨o, hle, hle', hcopies⟩ := Job.copies_of_run hplain hrun ht
      exact ⟨o, hstart ▸ hle, hstop ▸ hle', hcopies⟩
    · have hdense : j.source.Dense ⟨a.position, b.position⟩ := by rwa [hstart, hstop]
      rw [Job.text_of_run hrun]
      have htext := (Job.text_of_dense hplain hrun hdense).trans hwords
      exact congrArg _ ((congrArg String.ofList htext).trans String.ofList_toList)
  · intro t ht htable a ha
    obtain ⟨-, hparse⟩ := Java.parseSource_of_parse h
    obtain ⟨t', ht', hu⟩ := Java.exists_derivation hparse
    obtain rfl := Option.some.inj (ht'.symm.trans ht)
    have hsound : (Node.type ty).All fun n => j.source.Solid n.span :=
      (Java.sound_of_type ht htable hu hty).imp fun n hn => hj ▸ hn.solid
    refine Job.exists_run_type_iff hcpp hsound (fun hbrackets => ?_) ha
    rw [hj] at hbrackets ⊢
    exact Java.readable_of_derivation ht htable hu hty hbrackets

def Java.Node.type? : Node → Option Ty
  | .type ty => some ty
  | _ => none

theorem Java.Node.eq_of_type? {n : Node} {ty : Ty} (h : n.type? = some ty) : n = .type ty := by
  cases n with
  | type _ => cases h; rfl
  | _ => cases h

def nestedTypes : String := "class A\x7bMap<String[],a.List<int[][]>> m;\x7d"

theorem types_spelled_sample : ∃ p t ty b, Java.parse "A.java" nestedTypes = .ok p ∧
    Java.derivation? p.source = some t ∧
    p.source.comments = (Java.Rule.grammar.lexemes t).filterMap Grammar.Lexeme.comment? ∧
    .type ty ∈ (Node.unit p.unit).descendants ∧ p.source.Dense ty.span ∧
    (Node.type ty).All (Bracketed p.source) ∧
    (Job.mk p.source .cpp).run (Script.ofNode (.ofProfile .cpp) (.type ty))
      ((Job.mk p.source .cpp).pen.moveTo ty.span.start) = .ok b ∧
    b.sink.text = "Map<Array<String*>*,a::List<Array<Array<int>*>*>*>" := by
  have hsample : (Java.parse "A.java" nestedTypes).toOption.any (fun p =>
        (Node.unit p.unit).descendants.any fun n => n.type?.any fun ty =>
          spelled .cpp ty == "Map<Array<String*>*,a::List<Array<Array<int>*>*>*>" &&
          decide (p.source.Dense ty.span) &&
          ((Job.mk p.source .cpp).run (Script.ofNode (.ofProfile .cpp) (.type ty))
            ((Job.mk p.source .cpp).pen.moveTo ty.span.start)).toOption.isSome) = true ∧
      (Java.derivation? (Source.ofString "A.java" nestedTypes)).all (fun t =>
        Text.comments nestedTypes.toList
          == (Java.Rule.grammar.lexemes t).filterMap Grammar.Lexeme.comment?) = true := by
    decide +kernel
  obtain ⟨htypes, hsame⟩ := hsample
  obtain ⟨p, hp, htypes⟩ := (Option.any_eq_true _ _).1 htypes
  obtain ⟨n, hn, hnode⟩ := List.any_eq_true.1 htypes
  have h := ok_of_toOption hp
  obtain ⟨hsource, hparse⟩ := Java.parseSource_of_parse h
  obtain ⟨t, ht, -⟩ := Java.exists_derivation hparse
  have htable : p.source.comments
      = (Java.Rule.grammar.lexemes t).filterMap Grammar.Lexeme.comment? := by
    rw [hsource] at ht ⊢
    rw [ht] at hsame
    exact beq_iff_eq.1 hsame
  obtain ⟨ty, htype, hty⟩ := (Option.any_eq_true _ _).1 hnode
  obtain rfl := Node.eq_of_type? htype
  simp only [Bool.and_eq_true, decide_eq_true_eq, beq_iff_eq] at hty
  obtain ⟨⟨hspelled, hdense⟩, hrun⟩ := hty
  obtain ⟨b, hb⟩ := Option.isSome_iff_exists.1 hrun
  have hb := ok_of_toOption hb
  obtain ⟨htext, hwritten⟩ := types_spelled h hn (j := Job.mk p.source .cpp) rfl
    (s := .ofProfile .cpp) rfl
  obtain ⟨_, -, -, -, -, htext⟩ := htext _ b hb
  have hbrackets := (hwritten t ht htable _ rfl).1 ⟨b, hb⟩
  refine ⟨p, t, ty, b, h, ht, htable, hn, hdense, hbrackets, hb, ?_⟩
  rw [htext hdense]
  exact hspelled

def bracketComment : String := "class A \x7b\n    int[] /*[*/ a;\n\x7d\n"

/-- The bracket in the comment behind a type is counted, and the type cannot be written though there
is no space in it. -/
theorem types_stuck : ∃ p ty e, Java.parse "A.java" bracketComment = .ok p ∧
    .type ty ∈ (Node.unit p.unit).descendants ∧ p.source.Dense ty.span ∧
    p.source.slice? ty.span = some "int[]".toList ∧
    (Job.mk p.source .cpp).run (Script.ofNode (.ofProfile .cpp) (.type ty))
      ((Job.mk p.source .cpp).pen.moveTo ty.span.start) = .error e := by
  have htypes : (Java.parse "A.java" bracketComment).toOption.any (fun p =>
      (Node.unit p.unit).descendants.any fun n => n.type?.any fun ty =>
        decide (p.source.Dense ty.span) &&
        p.source.slice? ty.span == some "int[]".toList &&
        ((Job.mk p.source .cpp).run (Script.ofNode (.ofProfile .cpp) (.type ty))
          ((Job.mk p.source .cpp).pen.moveTo ty.span.start)).toOption.isNone) = true := by
    decide +kernel
  obtain ⟨p, hp, htypes⟩ := (Option.any_eq_true _ _).1 htypes
  obtain ⟨n, hn, hnode⟩ := List.any_eq_true.1 htypes
  obtain ⟨ty, htype, hty⟩ := (Option.any_eq_true _ _).1 hnode
  obtain rfl := Node.eq_of_type? htype
  simp only [Bool.and_eq_true, decide_eq_true_eq, beq_iff_eq] at hty
  obtain ⟨⟨hdense, hslice⟩, hrun⟩ := hty
  cases hstop : (Job.mk p.source .cpp).run (Script.ofNode (.ofProfile .cpp) (.type ty))
      ((Job.mk p.source .cpp).pen.moveTo ty.span.start) with
  | error e => exact ⟨p, ty, e, ok_of_toOption hp, hn, hdense, hslice, hstop⟩
  | ok b =>
    rw [hstop] at hrun
    cases hrun

end Transcribe
