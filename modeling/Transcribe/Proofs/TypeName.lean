/-
  Transcribe.Proofs.TypeName — how types are spelled in C++.

  The script of an array type opens all its arrays before the element and closes them behind it,
  one pair of brackets after the other, and the mark of a reference is written in three places.
  What comes out is the spelling of the type by its structure: an array of arrays is an array whose
  element is the inner one.

  A class is spelled as it is renamed, by its dotted name or else by its last segment, or by its
  segments (`spelledName`). What a script writes of its own is what its strokes write that they do
  not copy (`Stroke.word`); between these words stand copies of the space and comments of the source
  (`Job.Copies`), so where the source has none (`Dense`) the words are all of the text. A tree has
  to be `Proper`: no dots in the segments of names, and no array without dimensions.
  - `spelled`: the spelling of a type.
  - `words_ofType`: what the script of a type writes of its own is the spelling of the type.
  - `text_of_dense`: where the source has neither space nor comments nothing else is written.
-/

import Transcribe.Proofs.Dims
import Transcribe.Proofs.Emit
import Transcribe.Proofs.Ending.Tree
import Transcribe.Proofs.Ink

namespace Transcribe

open Text (Span Source)
open Java (Ty Name Node)
open Target (Profile)

/-! ## Spelling -/

def spelledName (p : Profile) (n : Name) : String :=
  ((p.typeRenames.get? (n.joined ".")).or (p.typeRenames.get? n.last)).getD (n.joined "::")

def markOf (p : Profile) (t : Ty) : String := if t.isReference then p.marker else ""

/-- Arrays in arrays. The innermost has elements with a mark of their own. -/
def nested (p : Profile) (element mark : String) : Nat → String
  | 0 => element
  | 1 => "Array<" ++ element ++ mark ++ ">"
  | n + 2 => "Array<" ++ nested p element mark (n + 1) ++ p.marker ++ ">"

mutual

def spelled (p : Profile) : Ty → String
  | .primitive _ k => p.primitive (Java.word k)
  | .simple t => spelledName p t.name
  | .array _ element dims => nested p (spelled p element) (markOf p element) dims
  | .generic _ base arguments =>
    spelledName p base.name ++ "<" ++ ",".intercalate (spelledAll p arguments) ++ ">"

def spelledAll (p : Profile) : List Ty → List String
  | [] => []
  | t :: ts => (spelled p t ++ markOf p t) :: spelledAll p ts

end

/-! ## What a script writes of its own -/

def Stroke.word : Stroke → List Char
  | .swap _ t | .write t => t.toList
  | _ => []

namespace Job

variable {j : Job} {p q : Pen} {r : Script}

theorem position_le_stroke {st : Stroke} (hst : st.isPlain = true) (h : j.stroke p st = .ok q) :
    p.position ≤ q.position := by
  cases st with
  | enter span =>
    obtain ⟨-, rfl⟩ := enter_eq_ok.1 h
    exact Nat.le_refl _
  | leave span =>
    obtain ⟨rfl, -⟩ := leave_eq_ok h
    exact Nat.le_refl _
  | swap a b =>
    obtain ⟨-, rfl⟩ := swap_ok h
    exact Nat.le_add_right _ _
  | write t =>
    cases h
    exact Nat.le_refl _
  | copySpace =>
    rw [copySpace_position h]
    exact Source.le_skipSpace _ _
  | skipSpace =>
    cases h
    exact Source.le_skipSpace _ _
  | _ => cases hst

theorem position_le_run (hr : r.all Stroke.isPlain = true) (h : j.run r p = .ok q) :
    p.position ≤ q.position := by
  induction r generalizing p with
  | nil =>
    cases h
    exact Nat.le_refl _
  | cons st r ih =>
    obtain ⟨hst, hr⟩ := Bool.and_eq_true_iff.1 hr
    obtain ⟨mid, hmid, hrest⟩ := run_cons_eq_ok.1 h
    exact Nat.le_trans (position_le_stroke hst hmid) (ih hr hrest)

theorem trailing_run (hr : r.all Stroke.isPlain = true) (h : j.run r p = .ok q)
    (hp : p.trailing = false) : q.trailing = false := by
  induction r generalizing p with
  | nil =>
    cases h
    exact hp
  | cons st r ih =>
    obtain ⟨hst, hr⟩ := Bool.and_eq_true_iff.1 hr
    obtain ⟨mid, hmid, hrest⟩ := run_cons_eq_ok.1 h
    refine ih hr hrest ?_
    cases st with
    | enter span =>
      obtain ⟨-, rfl⟩ := enter_eq_ok.1 hmid
      rfl
    | leave span =>
      obtain ⟨rfl, -⟩ := leave_eq_ok hmid
      exact hp
    | swap a b =>
      obtain ⟨-, rfl⟩ := swap_ok hmid
      exact hp
    | copySpace =>
      obtain ⟨cs, -, rfl⟩ := copySpace_ok hmid
      simpa using hp
    | write t | skipSpace =>
      cases hmid
      exact hp
    | _ => cases hst

theorem word_strokeInks {st : Stroke} (hst : st.isPlain = true) (h : j.stroke p st = .ok q) :
    (j.strokeInks p q st).flatMap Ink.word = st.word := by
  have hown : ∀ {w : List Char}, p.added q = w → [Ink.own (p.added q)].flatMap Ink.word = w := by
    rintro w rfl
    simp [Ink.word]
  cases st with
  | enter span =>
    obtain ⟨-, rfl⟩ := enter_eq_ok.1 h
    exact hown (Pen.added_of_text (by simp [Pen.note, Stroke.word]))
  | leave span =>
    obtain ⟨rfl, -⟩ := leave_eq_ok h
    exact hown (Pen.added_of_text (by simp [Stroke.word]))
  | swap a b =>
    obtain ⟨-, rfl⟩ := swap_ok h
    exact hown (Pen.added_of_text (by simp [Stroke.word]))
  | write t =>
    cases h
    exact hown (Pen.added_of_text (by simp [Stroke.word]))
  | copySpace => rfl
  | skipSpace =>
    cases h
    exact hown (Pen.added_of_text (by simp [skipSpace, Stroke.word]))
  | _ => cases hst

/-- Which words a script writes does not depend on the source. -/
theorem words_of_run (hr : r.all Stroke.isPlain = true) (h : j.run r p = .ok q) :
    (j.inks r p).flatMap Ink.word = r.flatMap Stroke.word := by
  induction r generalizing p with
  | nil => rfl
  | cons st r ih =>
    obtain ⟨hst, hr⟩ := Bool.and_eq_true_iff.1 hr
    obtain ⟨mid, hmid, hrest⟩ := run_cons_eq_ok.1 h
    rw [inks_cons hmid, List.flatMap_append, word_strokeInks hst hmid, ih hr hrest,
      List.flatMap_cons]

end Job

/-- The text is what is written of the space and comments from `o` on, less some indentation and
with tabs expanded if the profile asks for it. -/
def Job.Copies (j : Job) (o : Nat) (t : List Char) : Prop :=
  ∃ cs n indent, j.source.slice? ⟨o, j.source.skipSpace false o⟩ = some cs ∧
    Text.Copy j.profile.expandTabs (Text.dedent j.ruler n indent cs) t

def Text.Source.Dense (s : Source) (span : Span) : Prop :=
  ∀ o < span.stop, span.start ≤ o → s.skipSpace false o = o

instance (s : Source) (span : Span) : Decidable (s.Dense span) :=
  inferInstanceAs (Decidable (∀ o < span.stop, span.start ≤ o → s.skipSpace false o = o))

namespace Job

variable {j : Job} {p q : Pen} {r : Script}

/-- What a run copies is space and comments that it passes. -/
theorem copies_of_run (hr : r.all Stroke.isPlain = true) (h : j.run r p = .ok q) {t : List Char}
    (ht : .copied t ∈ j.inks r p) :
    ∃ o, p.position ≤ o ∧ j.source.skipSpace false o ≤ q.position ∧ j.Copies o t := by
  induction r generalizing p with
  | nil => cases ht
  | cons st r ih =>
    obtain ⟨hst, hplain⟩ := Bool.and_eq_true_iff.1 hr
    obtain ⟨mid, hmid, hrest⟩ := run_cons_eq_ok.1 h
    rw [inks_cons hmid, List.mem_append] at ht
    rcases ht with ht | ht
    · cases st with
      | copySpace =>
        obtain ⟨cs, hslice, rfl⟩ := copySpace_ok hmid
        obtain ⟨w, hw, hwrite⟩ := j.exists_writeSpace cs p
        have hadded : p.added ((j.writeSpace cs p).moveTo (j.source.skipSpace false p.position)) = w :=
          Pen.added_of_text (by rw [hwrite]; rfl)
        rw [strokeInks, List.mem_singleton, hadded] at ht
        cases ht
        have hle := position_le_run hplain hrest
        exact ⟨p.position, Nat.le_refl _, hle, cs, _, _, hslice, hw⟩
      | enter | leave | swap | write | skipSpace => cases List.mem_singleton.1 ht
      | _ => cases hst
    · obtain ⟨o, hle, hle', hcopies⟩ := ih hplain hrest ht
      exact ⟨o, Nat.le_trans (position_le_stroke hst hmid) hle, hle', hcopies⟩

/-- A run over a dense stretch copies nothing. -/
theorem text_of_dense (hr : r.all Stroke.isPlain = true) (h : j.run r p = .ok q)
    (hdense : j.source.Dense ⟨p.position, q.position⟩) :
    (j.inks r p).flatMap Ink.text = (j.inks r p).flatMap Ink.word := by
  refine List.flatMap_congr fun x hx => ?_
  cases x with
  | own t => rfl
  | copied t =>
    obtain ⟨o, hle, hle', cs, n, indent, hslice, hcopy⟩ := copies_of_run hr h hx
    have hstay : j.source.skipSpace false o = o := by
      rcases Nat.lt_or_ge o q.position with hlt | hge
      · exact hdense o hlt hle
      · exact Nat.le_antisymm (Nat.le_trans hle' hge) (Source.le_skipSpace _ _)
    rw [hstay] at hslice
    obtain ⟨-, hstop⟩ := Source.exists_rest_of_slice? hslice
    obtain rfl : cs = [] := Text.eq_nil_of_byteLength (Nat.add_eq_left.1 hstop.symm)
    exact hcopy.nil

end Job

/-! ## The words of a type -/

namespace Script

variable {p : Profile}

theorem words_dropName (n : Name) : (dropName n).flatMap Stroke.word = [] := by
  have hall : (dropName n).all (fun st => st.word.isEmpty) = true := by
    refine all_intercalate rfl fun r hr => ?_
    obtain ⟨x, -, rfl⟩ := List.mem_map.1 hr
    rfl
  rw [List.flatMap_eq_nil_iff]
  intro st hst
  simpa using List.all_eq_true.1 hall st hst

theorem words_commaList (as : List Script) :
    (commaList as).flatMap Stroke.word
      = [','].intercalate (as.map fun r => r.flatMap Stroke.word) := by
  cases as with
  | nil => rfl
  | cons r as =>
    induction as generalizing r with
    | nil => simp [commaList, Stroke.word]
    | cons r' as ih =>
      have hrest := ih r'
      simp only [commaList, token, Stroke.keep, Stroke.word, List.flatMap_cons, List.flatMap_append,
        List.flatMap_nil, List.map_cons, List.nil_append, List.append_nil] at hrest ⊢
      rw [List.intercalate_cons_cons, ← hrest]
      simp

theorem closeArrays_succ (p : Profile) (n : Nat) :
    closeArrays p (n + 2) = [Stroke.skipSpace, .drop "[", .skipSpace, .drop "]", .write ">"]
      ++ [Stroke.write p.marker] ++ closeArrays p (n + 1) := by
  simp [closeArrays, List.replicate_succ, List.intercalate_cons_cons]

theorem words_closeArrays (p : Profile) (n : Nat) :
    (closeArrays p (n + 1)).flatMap Stroke.word
      = '>' :: (List.replicate n (p.marker.toList ++ ['>'])).flatten := by
  induction n with
  | zero => simp [closeArrays, Stroke.word, Stroke.drop]
  | succ n ih =>
    rw [closeArrays_succ, List.flatMap_append, ih]
    simp [Stroke.word, Stroke.drop, List.replicate_succ]

end Script

theorem toList_nested (p : Profile) (element mark : String) (n : Nat) :
    (nested p element mark (n + 1)).toList
      = (List.replicate (n + 1) "Array<".toList).flatten ++ element.toList ++ mark.toList
        ++ '>' :: (List.replicate n (p.marker.toList ++ ['>'])).flatten := by
  induction n with
  | zero => simp [nested, String.toList_append]
  | succ n ih =>
    rw [nested, String.toList_append, String.toList_append, String.toList_append, ih,
      List.replicate_succ (n := n + 1), List.flatten_cons, List.replicate_succ' (n := n) (a := _ ++ _),
      List.flatten_append]
    simp

/-- What a tree has to have for its types to be spelled: no dots in the segments of names, and no
array without dimensions. -/
def Java.Node.Proper : Node → Prop
  | .type (.simple t) => ∀ x ∈ t.name.segments, '.' ∉ x.text.toList
  | .type (.array _ _ dims) => 0 < dims
  | _ => True

/-- Joined with dots, all but the last of some texts ends with a dot. -/
theorem exists_intercalate_dot (ts : List String) :
    ∃ a, (".".intercalate ts).toList = a ++ (ts.getLast?.getD "").toList ∧
      (a = [] ∨ a.getLast? = some '.') := by
  cases ts with
  | nil => exact ⟨[], by simp, .inl rfl⟩
  | cons t ts =>
    induction ts generalizing t with
    | nil => exact ⟨[], by simp, .inl rfl⟩
    | cons t' ts ih =>
      obtain ⟨a, ha, hdot⟩ := ih t'
      refine ⟨t.toList ++ '.' :: a, ?_, .inr ?_⟩
      · rw [String.intercalate_cons_of_ne_nil (by simp), String.toList_append, String.toList_append, ha]
        simp
      · rcases hdot with rfl | hdot
        · simp
        · rw [List.append_cons, List.getLast?_append, hdot]
          rfl

/-- Behind the last dot of a dotted name stands its last segment. -/
theorem lastSegment_joined {n : Name} (h : ∀ x ∈ n.segments, '.' ∉ x.text.toList) :
    Profile.lastSegment (n.joined ".") = n.last := by
  obtain ⟨a, ha, hdot⟩ := exists_intercalate_dot (n.segments.map (·.text))
  have hlast : '.' ∉ n.last.toList := by
    rw [Name.last]
    cases hget : (n.segments.map (·.text)).getLast? with
    | none => simp
    | some t =>
      obtain ⟨x, hx, rfl⟩ := List.mem_map.1 (List.mem_of_getLast? hget)
      exact h x hx
  have hfront : a.reverse.takeWhile (· != '.') = [] := by
    rcases hdot with rfl | hdot
    · rfl
    · obtain ⟨b, rfl⟩ := List.getLast?_eq_some_iff.1 hdot
      simp
  have hjoined : (n.joined ".").toList = a ++ n.last.toList := ha
  have hback : ∀ c ∈ n.last.toList.reverse, (c != '.') = true := by
    intro c hc
    rw [bne_iff_ne]
    rintro rfl
    exact hlast (List.mem_reverse.1 hc)
  rw [Profile.lastSegment, hjoined, List.reverse_append, List.takeWhile_append_of_pos hback, hfront]
  simp

theorem className_eq {p : Profile} (hcpp : p.isCpp = true) {t : Java.SimpleType}
    (h : ∀ x ∈ t.name.segments, '.' ∉ x.text.toList) :
    Script.className p t = spelledName p t.name := by
  rw [Script.className, spelledName, Profile.renamed?, lastSegment_joined h, hcpp]
  cases p.typeRenames.get? (t.name.joined ".") <;> cases p.typeRenames.get? t.name.last <;> rfl

theorem words_marked {p : Profile} (hcpp : p.isCpp = true) (t : Ty) (r : Script) :
    (Script.marked p t r).flatMap Stroke.word = r.flatMap Stroke.word ++ (markOf p t).toList := by
  rw [Script.marked, hcpp, Bool.true_and, markOf]
  split <;> simp [Stroke.word]

mutual

/-- What the script of a type writes of its own is the spelling of the type. -/
theorem words_ofType {p : Profile} (hcpp : p.isCpp = true) (t : Ty)
    (h : (Node.type t).All Node.Proper) :
    (Script.ofType p t).flatMap Stroke.word = (spelled p t).toList := by
  cases t with
  | primitive span k => simp [Script.ofType, Script.framed, Stroke.word, spelled]
  | simple t =>
    have hname := className_eq hcpp h.self
    simp [Script.ofType, Script.ofSimpleType, Script.framed, Script.words_dropName, Stroke.word,
      spelled, hname]
  | array span element dims =>
    have helement := words_ofType hcpp element (h.child (by simp [Node.children, Node.childrenOfType]))
    obtain ⟨n, rfl⟩ := Nat.exists_eq_add_one_of_ne_zero (Nat.ne_of_gt h.self)
    rw [Script.ofType, if_pos hcpp, spelled, toList_nested, ← helement]
    simp [Script.framed, Stroke.word, words_marked hcpp, Script.words_closeArrays,
      List.flatMap_replicate]
  | generic span base arguments =>
    have hbase := className_eq hcpp (h.child (c := .type (.simple base))
      (by simp [Node.children, Node.childrenOfType])).self
    have harguments := words_ofArguments hcpp arguments fun t ht =>
      h.child (by simp [Node.children, Node.childrenOfType, ht])
    simp [Script.ofType, Script.ofSimpleType, Script.framed, Script.token, Stroke.keep,
      Script.words_dropName, Script.words_commaList, Stroke.word, spelled, hbase, harguments]

theorem words_ofArguments {p : Profile} (hcpp : p.isCpp = true) (ts : List Ty)
    (h : ∀ t ∈ ts, (Node.type t).All Node.Proper) :
    (Script.ofArguments p ts).map (fun r => r.flatMap Stroke.word)
      = (spelledAll p ts).map String.toList := by
  cases ts with
  | nil => rfl
  | cons t ts =>
    obtain ⟨ht, hts⟩ := List.forall_mem_cons.1 h
    rw [Script.ofArguments, spelledAll, List.map_cons, List.map_cons, words_marked hcpp,
      words_ofType hcpp t ht, words_ofArguments hcpp ts hts, String.toList_append]

end

/-! ## Types that were read -/

namespace Java

open Grammar (Takes Cursor Mode Derivation)

variable {s : Source} {m : Mode} {c d : Cursor} {ts : List (Derivation Rule)}

/-- A node has one piece at most. -/
theorem length_piecesOfAll {r : Rule} {raw : Span} {parts : List (Derivation Rule)} {ps : List Piece}
    (h : piecesOfAll s [.node r raw parts] = some ps) : ps.length ≤ 1 := by
  obtain ⟨_, -, ⟨-, rfl⟩ | ⟨-, _, -, hp⟩⟩ := piecesOf_node h
  · exact Nat.zero_le _
  · obtain ⟨p, -, rfl⟩ := Option.map_eq_some_iff.1 hp
    exact Nat.le_refl _

/-- A match of brackets begins with a bracket. -/
theorem count_pos_of_dims {text : List Char} (hm : m.token = false) (hc : c.On s)
    (h : Takes Rule.grammar m (.once (Rule.grammar.body .dims)) c ts d)
    (htext : s.slice? ⟨c.offset, d.offset⟩ = some text) : 0 < text.count '[' := by
  rw [dimsCounted_of_takes hm hc h htext, dimsCounted]
  refine Nat.add_pos_left (List.countP_pos_iff.2 ?_) _
  cases h with
  | seq hpair _ =>
    cases hpair with
    | seq hopen _ =>
      cases hopen with
      | @word _ w _ rest hword =>
        have hw := Grammar.reaches_of_afterWord? hword
        refine ⟨.word ⟨c.offset, c.offset + Text.byteLength ['[']⟩, ?_, ?_⟩
        · simp [Mode.leaf, hm]
        · unfold Cursor.On at hc
          rw [hw.rest_eq] at hc
          have hslice : s.slice? ⟨c.offset, c.offset + Text.byteLength ['[']⟩ = some ['['] :=
            Source.slice?_eq_some hc rfl
          rw [opens, hslice]
          rfl

theorem dims_pos_of_takes {el : Ty} {k : Nat} (hm : m.token = false) (hc : c.On s)
    (h : Takes Rule.grammar m (.once (Rule.grammar.body .javaType)) c ts d)
    (hps : piecesOfAll s ts = some [.type el, .dims k]) : 0 < k := by
  cases h with
  | @seq _ _ _ _ before mid behind _ hx hy =>
    obtain ⟨front, rs, hfront, hrs, hsplit⟩ := piecesOfAll_append hps
    obtain ⟨qs, gs, hqs, hgs, rfl⟩ := piecesOfAll_append hfront
    obtain rfl : gs = [] := by
      rw [Mode.gapLeaves, piecesOfAll_comments] at hgs
      exact (Option.some.inj hgs).symm
    rw [List.append_nil] at hsplit
    have hone : qs.length ≤ 1 := by
      have hnode : ∀ {r : Rule}, Takes Rule.grammar m (.once (.rule r)) c before mid →
          qs.length ≤ 1 := by
        intro r hr
        obtain ⟨parts, -, rfl⟩ := hr.of_rule
        rw [hm] at hqs
        exact length_piecesOfAll hqs
      cases hx with
      | left hx => exact hnode hx
      | right _ hx => exact hnode hx
    cases hy with
    | absent =>
      obtain rfl : rs = [] := by simpa [piecesOfAll] using hrs.symm
      have := congrArg List.length hsplit
      simp at this
      omega
    | present hy =>
      obtain ⟨parts, hdims, rfl⟩ := hy.of_rule
      rw [hm] at hrs
      obtain ⟨_, -, ⟨hplain, -⟩ | ⟨-, text, htext, hp⟩⟩ := piecesOf_node hrs
      · cases hplain
      · obtain ⟨p, hp, rfl⟩ := Option.map_eq_some_iff.1 hp
        cases hp
        obtain ⟨v, hv⟩ := hx.reaches
        obtain ⟨v', hv'⟩ := m.gap_reaches mid
        have hlast := congrArg List.getLast? hsplit
        obtain rfl : k = text.count '[' := by simpa using hlast
        exact count_pos_of_dims hm (hv'.on (hv.on hc)) hdims htext

/-- An array type is made of its element and its brackets. One that is only passed on has children
that its match does not have. -/
theorem Piece.of_javaType?_array {span sp : Span} {ps : List Piece} {el : Ty} {k : Nat}
    (hchildren : (Node.type (.array sp el k)).children.Sublist (ps.flatMap Piece.nodes))
    (h : Piece.javaType? span ps = some (.array sp el k)) :
    sp = span ∧ ps = [.type el, .dims k] := by
  unfold Piece.javaType? at h
  split at h
  · cases h
    -- The type would be its own element.
    have hself : [Node.type el].Sublist [.type (.array sp el k)] := hchildren
    cases List.singleton_sublist.1 hself with
    | tail _ hmem => cases hmem
  · cases h
    exact ⟨rfl, rfl⟩
  · cases h

/-- The types of a tree that was read can be spelled. -/
theorem proper_of_parse {name text : String} {p : Parsed} (h : parse name text = .ok p) :
    (Node.unit p.unit).All Node.Proper := by
  obtain ⟨-, hparse⟩ := parseSource_of_parse h
  obtain ⟨t, ht, hu⟩ := exists_derivation hparse
  obtain ⟨d, htakes⟩ := takes_of_derivation? ht
  have hpieces := piecesOf_of_ofDerivation? hu
  intro n hn
  unfold Node.Proper
  split
  · rename_i t
    intro x hx hdot
    have hident := (tidy_of_parse h _ hn).names x hx '.' hdot
    cases hident
  · rename_i span el k
    have hrooted := rooted_of_piecesOf p.source t hpieces (.unit p.unit) (by simp) _
      (by simp [Piece.nodes]) _ hn
    obtain ⟨raw, parts, ps, text, q, hmem, -, hps, hq, hnode, hchildren⟩ :=
      hrooted .javaType rfl rfl
    obtain ⟨m, c, d, hm, hc, rfl, hbody⟩ :=
      takes_of_subtree htakes (Text.dropBytes?_zero _) rfl hmem
    obtain ⟨ty, hty, rfl⟩ := Option.map_eq_some_iff.1
      (show (Piece.javaType? (trim p.source ⟨c.offset, d.offset⟩) ps).map Piece.type = some q from hq)
    cases hnode
    obtain ⟨-, rfl⟩ := Piece.of_javaType?_array (hchildren nofun) hty
    exact dims_pos_of_takes hm hc hbody hps
  · trivial

end Java

end Transcribe
