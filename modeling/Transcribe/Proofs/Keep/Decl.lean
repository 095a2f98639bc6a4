/-
  Transcribe.Proofs.Keep.Decl — fields, methods and types keep the comments of the source.

  Behind the parameters of a method the pen may be moved on, past the types it throws or past its
  body. The two tokens that close the parameters lie before either, so it is never moved back. What
  is passed over there is a region of the method, and so is the space between the types a class
  extends and the word behind them.
  - `Kept.parameterList`: where the parameters of a method end.
  - `ofMember`, `ofDecl`: what declarations keep.
-/

import Transcribe.Proofs.Keep.Stmt
import Transcribe.Proofs.Track.Decl

namespace Transcribe

open Text (Span Source Scan byteLength)
open Text.Scan (Plain)
open Grammar (Lexeme calm)
open Java (Ty Modifier Field Method TypeHead TypeParameter Member TypeDecl Parameter Block Access Stmt
  Node Rule Good Sound Chained)
open Java.Node (losses underModifiers underVariables underParameter underType underTypes underHead
  underBlock underMethod underMember underMembers)

variable {t : Ty} {s : Source} {ls : List (Lexeme Rule)} {m : Method}

/-! ## Where the parameters of a method end -/

theorem Job.token_ok {j : Job} {t : String} {p q : Pen} (h : j.run (Script.token t) p = .ok q) :
    (∃ r, j.source.rest? (j.source.skipSpace false p.position) = some (t.toList ++ r)) ∧
      q.position = j.source.skipSpace false p.position + byteLength t.toList := by
  obtain ⟨mid, hmid, hrun⟩ := Job.run_cons_eq_ok.1 h
  obtain ⟨hrest, rfl⟩ := Job.swap_ok (Job.run_singleton ▸ hrun)
  rw [Job.copySpace_position hmid] at hrest ⊢
  exact ⟨hrest, rfl⟩

theorem Java.Good.method_order (h : Good s ls (.method m)) :
    ∀ x ∈ Node.ofName m.name :: m.parameters.map Node.parameter,
      ∀ y ∈ m.thrown.map Node.type ++ m.body?.toList.map Node.ofBlock, x.span.stop ≤ y.span.start := by
  have hpairwise := (Java.inside_of_inOrder h.inOrder).2
  rw [show (Node.method m).children = (m.modifiers.map .modifier ++ m.returnType?.toList.map .type)
      ++ ((Node.ofName m.name :: m.parameters.map .parameter)
        ++ (m.thrown.map .type ++ m.body?.toList.map Node.ofBlock)) by simp [Node.children],
    List.pairwise_append] at hpairwise
  exact (List.pairwise_append.1 hpairwise.2.1).2.2

/-- The last of the types a method throws ends behind the others. -/
theorem Java.Good.thrown_le (h : Good s ls (.method m)) (hlast : m.thrown.getLast? = some t)
    (ht : Good s ls (.type t)) :
    ∀ x ∈ m.thrown, x.span.stop ≤ t.span.stop := by
  have hsub : (m.thrown.map Node.type).Sublist (Node.method m).children :=
    (List.sublist_append_right _ _).trans (List.sublist_append_left _ _)
  have hpairwise := (Java.inside_of_inOrder h.inOrder).2.sublist hsub
  obtain ⟨ts, hts⟩ := List.getLast?_eq_some_iff.1 hlast
  rw [hts, List.map_append, List.pairwise_append] at hpairwise
  intro x hx
  rw [hts, List.mem_append, List.mem_singleton] at hx
  rcases hx with hx | rfl
  · have hle : x.span.stop ≤ t.span.start :=
      hpairwise.2.2 (.type x) (List.mem_map_of_mem hx) (.type t) (by simp)
    have hlt : t.span.start < t.span.stop := ht.solid.lt
    omega
  · exact Nat.le_refl _

/-- A second token begins inside a node of at least two. -/
theorem Java.Good.exists_inner {n : Node} {r : Rule} {x y : Grammar.Peg Rule} (h : Good s ls n)
    (hclear : Java.Clear s ls) (hr : n.rule? = some r) (hkind : r.kind = .tree)
    (hbody : r.body = .seq x y) (hx : Java.yields x = true) (hy : Java.yields y = true) :
    ∃ z, n.span.start < z ∧ z < n.span.stop ∧ s.OnCode z ∧ s.skipSpace false z = z := by
  obtain ⟨raw, parts, p, -, hgrown⟩ := h.born r hr
  obtain ⟨items, text, hforms, -, -, hlinked, hparts, -⟩ := hgrown.tree_ok hkind
  rw [hbody] at hforms
  obtain ⟨i, k, rest, rfl⟩ : ∃ i k rest, items = i :: k :: rest := by
    cases hforms with
    | @seq _ _ is js his hjs =>
      obtain ⟨i, is, rfl⟩ := List.exists_cons_of_ne_nil (his.ne_nil hx)
      obtain ⟨k, js, rfl⟩ := List.exists_cons_of_ne_nil (hjs.ne_nil hy)
      cases is with
      | nil => exact ⟨i, k, js, rfl⟩
      | cons i' is => exact ⟨i, i', is ++ k :: js, rfl⟩
  obtain ⟨hgap, hsolid, hgap', hsolid', hrest⟩ := hlinked
  have := hgap.inGap.le
  have := hsolid.lt
  have := hgap'.inGap.le
  have := hsolid'.lt
  have := hrest.le
  exact ⟨k.span.start, by omega, by omega, (hclear.ends (hparts k (by simp))).1, hsolid'.start⟩

theorem Java.Good.type_onCode (h : Good s ls (.type t)) (hclear : Java.Clear s ls) :
    s.OnCode t.span.start ∧ s.OnCode t.span.stop := by
  cases t with
  | primitive span k => cases k <;> exact h.onCode hclear rfl
  | simple | array | generic => exact h.onCode hclear rfl

/-- The nodes below a node lie in its span. -/
theorem Java.Node.All.inside {n : Node} (h : Sound s ls n) {c : Node} (hc : c ∈ n.descendants) :
    n.span.start ≤ c.span.start ∧ c.span.stop ≤ n.span.stop := by
  refine (Outline.of_mem_descendants (P := fun c => Sound s ls c ∧ n.span.start ≤ c.span.start ∧
    c.span.stop ≤ n.span.stop) (fun m c hm hc => ?_) n ⟨h, Nat.le_refl _, Nat.le_refl _⟩ c hc).2
  obtain ⟨hm, hstart, hstop⟩ := hm
  obtain ⟨hstart', hstop'⟩ := (Java.inside_of_inOrder hm.self.inOrder).1 c hc
  exact ⟨hm.child hc, by omega, by omega⟩

/-- All below a type are types. -/
theorem Java.Node.exists_type {c : Node} (h : c ∈ underType t) : ∃ x, c = .type x := by
  refine Outline.of_mem_descendants (P := fun c => ∃ x, c = .type x) ?_ (.type t) ⟨t, rfl⟩ c h
  rintro n c ⟨x, rfl⟩ hc
  cases x with
  | primitive | simple => cases hc
  | array span element dims => exact ⟨element, List.mem_singleton.1 hc⟩
  | generic span base arguments =>
    rcases List.mem_cons.1 hc with rfl | hc
    · exact ⟨_, rfl⟩
    · obtain ⟨x, -, rfl⟩ := List.mem_map.1 hc
      exact ⟨x, rfl⟩

/-- The regions of a type lie in its span. -/
theorem Java.Node.losses_underType (h : Sound s ls (.type t)) {r : Span}
    (hr : r ∈ losses s (underType t)) :
    t.span.start ≤ r.start ∧ r.stop ≤ t.span.stop := by
  obtain ⟨c, hc, hrc⟩ := List.mem_flatMap.1 hr
  obtain ⟨x, rfl⟩ := Java.Node.exists_type hc
  cases x with
  | simple x =>
    obtain rfl := List.mem_singleton.1 hrc
    exact h.inside hc
  | primitive | array | generic => cases hrc

theorem Java.NamedAt.ne {o z : Nat} {c : Char} {r : List Char} (h : Java.NamedAt s z)
    (hrest : s.rest? o = some (c :: r)) (hc : Java.isIdentChar c = false) : o ≠ z := by
  rintro rfl
  obtain ⟨d, r', hd, hident⟩ := h
  rw [hrest] at hd
  cases hd
  rw [hc] at hident
  cases hident

section

variable {j : Job} {ls : List (Lexeme Rule)} {strict : Bool} {s : Setting} {b bs : List Char}
  {a : Nat} {lost : List Span} {p q : Pen} {m : Method}

/-- The parameters of a method end behind a parenthesis that is not behind `z`, if there is room
before `z` for the one that opens them. -/
theorem Kept.parameterList (h : Kept j strict b a lost bs .code p) (hj : Orderly j ls strict)
    (hprofile : s.profile = j.profile) (hm : Sound j.source ls (.method m))
    (hstart : p.position = m.name.span.stop)
    (hrun : j.run (Script.ofParameterList s m) p = .ok q) :
    Kept j strict b a (lost ++ m.parameters.flatMap fun x => losses j.source (underParameter x))
        (bs ++ (Script.ofParameterList s m).brackets) .code q ∧
      q.position = m.closing j.source ∧
      ∃ o r, q.position = o + 1 ∧ j.source.rest? o = some (')' :: r) ∧
        ∀ z, j.source.OnCode z → j.source.skipSpace false z = z →
          (∀ x ∈ m.parameters, x.span.stop ≤ z) →
          (∀ r, j.source.rest? (j.source.skipSpace false m.name.span.stop) = some ('(' :: r) →
            j.source.skipSpace false m.name.span.stop < z) → o ≤ z := by
  have hs := hj.clear.isSealed
  obtain ⟨mid', hmid', hclose⟩ := Job.run_append_eq_ok.1 hrun
  obtain ⟨mid, hopen, hlist⟩ := Job.run_append_eq_ok.1 hmid'
  have hparameters : ∀ x ∈ m.parameters, Keeps j strict .ready .code
      (losses j.source (underParameter x)) (Script.ofParameter s x) := fun x hx =>
    Keeps.ofParameter hj hprofile (hm.child (by simp [Node.children, hx]))
  have hmid := Keeps.token_code hs rfl (by decide) _ rfl h hopen
  have hkept := Keeps.commaList hs rfl hparameters _ rfl hmid hlist
  have hq := Keeps.token_code hs rfl (by decide) _ rfl hkept hclose
  obtain ⟨⟨r, hr⟩, hpos⟩ := Job.token_ok hopen
  obtain ⟨⟨r', hr'⟩, hpos'⟩ := Job.token_ok hclose
  rw [hstart] at hr hpos
  -- The list ends behind its last parameter, or behind the parenthesis that opens it.
  have hlast : (m.parameters = [] ∧ mid'.position = j.source.skipSpace false m.name.span.stop + 1) ∨
      ∃ x ∈ m.parameters, m.parameters.getLast? = some x ∧ mid'.position = x.span.stop := by
    cases hlast : m.parameters.getLast? with
    | none =>
      have hnil := List.getLast?_eq_none_iff.1 hlast
      rw [hnil] at hlist
      obtain rfl := Except.ok.inj hlist
      exact .inl ⟨hnil, hpos⟩
    | some x =>
      refine .inr ⟨x, List.mem_of_getLast? hlast, rfl, ?_⟩
      exact Ends.commaList hlast ends_framed hlist (hkept.trailing (by simp))
  refine ⟨by simpa [Script.ofParameterList] using hq, ?_,
    j.source.skipSpace false mid'.position, r', hpos', hr', ?_⟩
  · rw [hpos', Method.closing]
    rcases hlast with ⟨hnil, hmid'⟩ | ⟨x, -, hx, hmid'⟩
    · rw [hnil, hmid']
      rfl
    · rw [hx, hmid']
      rfl
  · intro z hz hstay hle hroom
    refine hkept.onCode.skipSpace_le hz ?_ (.inl hstay)
    rcases hlast with ⟨-, hmid'⟩ | ⟨x, hx, -, hmid'⟩
    · rw [hmid']
      exact hroom r hr
    · rw [hmid']
      exact hle x hx

/-- The parameters of a method end before the types it throws. -/
theorem Kept.closing_le_thrown (h : Kept j strict b a lost bs .code p) (hj : Orderly j ls strict)
    (hprofile : s.profile = j.profile) (hm : Sound j.source ls (.method m))
    (hstart : p.position = m.name.span.stop)
    (hrun : j.run (Script.ofParameterList s m) p = .ok q) :
    ∀ t ∈ m.thrown, m.closing j.source ≤ t.span.start := by
  intro t ht
  obtain ⟨-, hpos, o, r, ho, hr, hle⟩ := h.parameterList hj hprofile hm hstart hrun
  have hgood := (hm.child (c := .type t) (by simp [Node.children, ht])).self
  have hon := (hgood.type_onCode hj.clear).1
  have hstay : j.source.skipSpace false t.span.start = t.span.start := hgood.solid.start
  have horder := fun x hx => hm.self.method_order x hx (.type t) (by simp [ht])
  have hname : m.name.span.stop ≤ t.span.start := horder (Node.ofName m.name) List.mem_cons_self
  have hskip := (hstart ▸ h.onCode).skipSpace_le hon hname (.inl hstay)
  have hroom := hle t.span.start hon hstay
    (fun x hx => horder (.parameter x) (List.mem_cons_of_mem _ (List.mem_map_of_mem hx)))
    fun r' hr' => Nat.lt_of_le_of_ne hskip (hgood.namedAt.ne hr' rfl)
  have hne := hgood.namedAt.ne hr rfl
  omega

/-- The parameters of a method end before its body does. -/
theorem Kept.closing_le_body (h : Kept j strict b a lost bs .code p) (hj : Orderly j ls strict)
    (hprofile : s.profile = j.profile) (hm : Sound j.source ls (.method m))
    (hstart : p.position = m.name.span.stop)
    (hrun : j.run (Script.ofParameterList s m) p = .ok q) {body : Block} (hbody : m.body? = some body) :
    q.position ≤ body.span.stop := by
  obtain ⟨-, -, o, r, ho, -, hle⟩ := h.parameterList hj hprofile hm hstart hrun
  have hgood := (hm.child (c := Node.ofBlock body) (by simp [Node.children, hbody])).self
  obtain ⟨z, hlt, hlt', hon, hstay⟩ := hgood.exists_inner hj.clear rfl rfl rfl rfl rfl
  have hlt : body.span.start < z := hlt
  have hlt' : z < body.span.stop := hlt'
  have horder := fun x hx => hm.self.method_order x hx (Node.ofBlock body) (by simp [hbody])
  have hname : m.name.span.stop ≤ body.span.start := horder (Node.ofName m.name) List.mem_cons_self
  have hskip := (hstart ▸ h.onCode).skipSpace_le (hgood.onCode hj.clear rfl).1 hname
    (.inl hgood.solid.start)
  have hskip : j.source.skipSpace false m.name.span.stop ≤ body.span.start := hskip
  have hroom := hle z hon hstay (fun x hx => ?_) fun r' hr' => by omega
  · omega
  · have : x.span.stop ≤ body.span.start :=
      horder (.parameter x) (List.mem_cons_of_mem _ (List.mem_map_of_mem hx))
    omega

theorem Script.isMove_dropThrows (m : Method) : (dropThrows m).all Stroke.isMove = true := by
  unfold dropThrows
  split <;> rfl

/-- The types a method throws are passed over, and all regions of theirs with them. -/
theorem Kept.dropThrows (h : Kept j strict b a lost bs .code p) (hj : Orderly j ls strict)
    (hm : Sound j.source ls (.method m)) (hpos : p.position = m.closing j.source)
    (hle : ∀ t ∈ m.thrown, m.closing j.source ≤ t.span.start)
    (hrun : j.run (Script.dropThrows m) p = .ok q) :
    Kept j strict b a
        (lost ++ ((Node.method m).lossy j.source ++ losses j.source (underTypes m.thrown))) bs .code
        q ∧
      (q = p ∨ ∃ t ∈ m.thrown, q.position = t.span.stop) := by
  have hmoves := Job.run_moves (Script.isMove_dropThrows m) hrun
  unfold Script.dropThrows at hrun
  cases hlast : m.thrown.getLast? with
  | none =>
    rw [hlast] at hrun
    obtain rfl := Except.ok.inj hrun
    rw [List.getLast?_eq_none_iff.1 hlast]
    simpa [Node.lossy, underTypes, List.getLast?_eq_none_iff.1 hlast] using h
  | some t =>
    rw [hlast] at hrun
    have ht : t ∈ m.thrown := List.mem_of_getLast? hlast
    have hsound : ∀ t ∈ m.thrown, Sound j.source ls (.type t) := fun t ht =>
      hm.child (by simp [Node.children, ht])
    have hstop : q = p.moveTo t.span.stop := by
      have hrun : j.run ([Stroke.skipSpace, .drop "throws"] ++ [Stroke.moveTo t.span.stop]) p = .ok q := hrun
      obtain ⟨mid, -, hlast⟩ := Job.run_append_eq_ok.1 hrun
      obtain rfl := Except.ok.inj (Job.run_singleton ▸ hlast)
      exact hmoves
    have hstart := hle t ht
    have hlt : t.span.start < t.span.stop := (hsound t ht).self.solid.lt
    have hentry : Entry j strict [⟨m.closing j.source, t.span.stop⟩] p.position t.span.stop [] := by
      rw [hpos]
      exact .region_nil (by omega)
    have hpass := h.pass ((hsound t ht).self.type_onCode hj.clear).2 hentry
    have hlossy : (Node.method m).lossy j.source = [⟨m.closing j.source, t.span.stop⟩] := by
      simp [Node.lossy, hlast]
    rw [hstop, hlossy]
    refine ⟨hpass.of_lost ?_ ?_, .inr ⟨t, ht, rfl⟩⟩
    · exact Text.covered_of_subset fun r hr => by
        simp only [List.mem_append] at hr ⊢
        exact hr.imp_right .inl
    · -- What is lost of the types lies behind the parameters and before the last of the types.
      refine Text.Covered.append_left (fun r hr => ⟨_, List.mem_singleton_self _, ?_⟩) lost
      rcases List.mem_append.1 hr with hr | hr
      · obtain rfl := List.mem_singleton.1 hr
        simp [Span.covers]
      · rw [Node.underTypes_eq, Node.losses_flatMap] at hr
        obtain ⟨x, hx, hr⟩ := List.mem_flatMap.1 hr
        have hin := Node.losses_underType (hsound x hx) hr
        have := hle x hx
        have := hm.self.thrown_le hlast (hsound t ht).self x hx
        simp only [Span.covers, Bool.and_eq_true, decide_eq_true_eq]
        omega

end

namespace Keeps

variable {j : Job} {ls : List (Lexeme Rule)} {strict : Bool} {s : Setting}

/-! ## Fields -/

theorem isName_keyword (k : Java.Keyword) : Java.isName (Java.word k) = true := by
  cases k with
  | access a => cases a <;> rfl
  | _ => rfl

theorem isName_fieldWords (s : Setting) (f : Field) :
    ∀ w ∈ Script.fieldWords s f, Java.isName w = true := by
  unfold Script.fieldWords
  split
  · simp only [List.forall_mem_cons]
    exact ⟨rfl, rfl, by simp⟩
  · refine isName_keywords (fun k w hk => ?_) _
    unfold Script.fieldWord at hk
    split at hk
    · cases hk
      split <;> rfl
    · cases hk
      rfl
    · rename_i access
      split at hk
      · cases hk
      · cases hk
        cases access <;> rfl
    · split at hk
      · cases hk
      · cases hk
        rfl
    · cases hk

theorem ofField (hj : Orderly j ls strict) (hprofile : s.profile = j.profile) {f : Field}
    (h : Sound j.source ls (.field f)) :
    Keeps j strict .ready .code (losses j.source (underVariables f.vars)) (Script.ofField s f) := by
  have hchain : Chained j.source f.span.start f.vars.modifiers := h.self.chain
  have hvariables := ofVariables hj hprofile hchain (fun c hc => h.child hc) (isName_fieldWords s f)
  refine frame h.self.start_lt ?_
  simpa using append_at hvariables (token hj.clear.isSealed rfl (by decide))

/-! ## Methods -/

/-- What follows the parameters and the types a method throws, where the body is not moved. -/
theorem ofMethodBody (hj : Orderly j ls strict) (hprofile : s.profile = j.profile)
    (h : Sound j.source ls (.method m)) (hkeep : s.keepsBodies = true ∨ m.body? = none) :
    Keeps j strict .code .code (losses j.source (m.body?.toList.flatMap underBlock))
      (Script.ofMethodBody s m) := by
  have hs := hj.clear.isSealed
  unfold Script.ofMethodBody
  cases hbody : m.body? with
  | none =>
    have hend : Keeps j strict .code .code []
        ((if Script.isPure s m then [Stroke.write " = 0"] else []) ++ [Stroke.keep ";"]) :=
      (optional _ (write (Scan.plain_of_calm rfl))).append (keep_loose rfl (by decide)).of_code
    simpa using space hs (hend.of_needs ((Needs.swap (by decide)).optional _ _))
  | some b =>
    have hkeeps : (s.isCpp && !s.defining) = false := by
      rcases hkeep with hkeep | hkeep
      · simpa only [Setting.keepsBodies, Bool.not_eq_eq_eq_not, Bool.not_true] using hkeep
      · rw [hbody] at hkeep
        cases hkeep
    have hblock := ofStmt (s := { s with inBody := true }) hj hprofile
      (h.child (c := Node.ofBlock b) (by simp [Node.children, hbody]))
    simpa [hkeeps, underBlock] using space hs hblock

theorem ofReturnType (hj : Orderly j ls strict) (hprofile : s.profile = j.profile)
    (h : Sound j.source ls (.method m)) :
    Keeps j strict .ready .ready (losses j.source (underTypes m.returnType?.toList))
      (Script.ofReturnType s m) := by
  unfold Script.ofReturnType
  cases hreturn : m.returnType? with
  | none => exact nil
  | some t =>
    have htype := ofMarkedType hj (h.child (c := .type t) (by simp [Node.children, hreturn]))
    rw [← hprofile] at htype
    simpa [underTypes] using htype.append (copyDelimiter hj.clear.isSealed)

/-- A method from its parameters on. -/
theorem methodTail (hj : Orderly j ls strict) (hprofile : s.profile = j.profile)
    (h : Sound j.source ls (.method m)) :
    KeepsAt j strict m.name.span.stop .code .code
      ((m.parameters.flatMap fun x => losses j.source (underParameter x))
        ++ ((Node.method m).lossy j.source ++ losses j.source (underTypes m.thrown))
        ++ losses j.source (m.body?.toList.flatMap underBlock))
      (Script.ofParameterList s m ++ Script.dropThrows m ++ Script.ofMethodBody s m) := by
  intro b a lost bs p q hstart hp hrun
  obtain ⟨mid', hrun, hbody⟩ := Job.run_append_eq_ok.1 hrun
  obtain ⟨mid, hlist, hthrows⟩ := Job.run_append_eq_ok.1 hrun
  obtain ⟨hmid, hpos, -⟩ := hp.parameterList hj hprofile h hstart hlist
  obtain ⟨hmid', hwhere⟩ := hmid.dropThrows hj h hpos
    (hp.closing_le_thrown hj hprofile h hstart hlist) hthrows
  by_cases hkeep : s.keepsBodies = true ∨ m.body? = none
  · simpa [Script.brackets_moves (Script.isMove_dropThrows m)] using
      ofMethodBody hj hprofile h hkeep _ rfl hmid' hbody
  -- The body stands elsewhere, and the pen is moved past it.
  obtain ⟨hskip, hsome⟩ := not_or.1 hkeep
  obtain ⟨block, hblock⟩ := Option.ne_none_iff_exists'.1 hsome
  have hskip : (s.isCpp && !s.defining) = true := by
    simpa [Setting.keepsBodies] using hskip
  have hcpp : j.profile.isCpp = true := by
    rw [← hprofile]
    exact (Bool.and_eq_true_iff.1 hskip).1
  have hgood := (h.child (c := Node.ofBlock block) (by simp [Node.children, hblock])).self
  have hle : mid'.position ≤ block.span.stop := by
    rcases hwhere with rfl | ⟨t, ht, hmid'⟩
    · exact hp.closing_le_body hj hprofile h hstart hlist hblock
    · have hbefore : t.span.stop ≤ block.span.start :=
        (List.pairwise_append.1 (Java.inside_of_inOrder h.self.inOrder).2).2.2 (.type t)
          (by simp [ht]) (Node.ofBlock block) (by simp [hblock])
      have hlt : block.span.start < block.span.stop := hgood.solid.lt
      omega
  simp only [Script.ofMethodBody, hblock, hskip, if_true] at hbody
  obtain ⟨mid'', hwrite, hmove⟩ := Job.run_cons_eq_ok.1 hbody
  obtain rfl := Except.ok.inj (Job.run_singleton ▸ hmove)
  have hwritten := write (Scan.plain_of_calm rfl) _ rfl hmid' (Job.run_singleton.trans hwrite)
  obtain rfl := Except.ok.inj hwrite
  have hbrackets : Script.brackets
      (Script.ofParameterList s m ++ Script.dropThrows m ++ Script.ofMethodBody s m)
      = (Script.ofParameterList s m).brackets ++ Script.brackets [.write ";"] := by
    simp [Script.brackets_moves (Script.isMove_dropThrows m), Script.ofMethodBody, hblock, hskip,
      Stroke.brackets]
  rw [hbrackets, ← List.append_assoc bs]
  exact (hwritten.pass (hgood.onCode hj.clear rfl).2
    (.loss hle (hj.strict_cpp hcpp))).forget (hj.strict_cpp hcpp)

theorem isName_methodWords (s : Setting) (m : Method) :
    ∀ w ∈ Script.methodWords s m, Java.isName w = true := by
  unfold Script.methodWords
  split
  · simp
  · split
    · intro w hw
      rcases List.mem_append.1 hw with hw | hw
      · split at hw
        · obtain rfl := List.mem_singleton.1 hw
          rfl
        · cases hw
      · refine isName_keywords (fun k w hk => ?_) _ w hw
        unfold Script.headerWord at hk
        split at hk
        · cases hk
          rfl
        · cases hk
    · refine isName_keywords (fun k w hk => ?_) _
      unfold Script.methodWord at hk
      split at hk
      · cases hk
      · cases hk
      · cases hk
      · cases hk
      · cases hk
        exact isName_keyword k

theorem ofMethod (hj : Orderly j ls strict) (hprofile : s.profile = j.profile)
    (hqualifier : calm s.qualifier.toList = true) (h : Sound j.source ls (.method m)) :
    Keeps j strict .ready .code (losses j.source (underMethod m)) (Script.ofMethod s m) := by
  have hchain : Chained j.source m.span.start m.modifiers := h.self.chain
  have hmodifiers := replaceModifiers hj hchain
    (fun x hx => (h.child (by simp [Node.children, hx])).self)
    (isName_methodWords s m)
  have hreturn := ofReturnType hj hprofile h
  have hgood := (h.child (c := Node.ofName m.name) (by simp [Node.children])).self
  have hwrite : Plain (s.qualifier ++ "::").toList := by
    rw [String.toList_append]
    exact Scan.plain_of_calm (Grammar.calm_append hqualifier rfl)
  have hname : Keeps j strict .code .code []
      ((if s.defining then [Stroke.write (s.qualifier ++ "::")] else []) ++ Script.ofName m.name) :=
    (optional s.defining (write hwrite)).append (ofName hgood).of_code
  have hends : Ends j ((if s.defining then [Stroke.write (s.qualifier ++ "::")] else [])
      ++ Script.ofName m.name) m.name.span.stop := Ends.append ends_framed
  have htail := ((hname.of_needs ((Needs.ofName hgood).optional _ _)).append_ends (by simp) hends
    (methodTail hj hprofile h))
  have hscript := append_at (append_at hmodifiers hreturn) htail
  have hmem : ∀ r, r ∈ losses j.source (underModifiers m.modifiers)
      ++ losses j.source (underTypes m.returnType?.toList) ++ ([]
        ++ ((m.parameters.flatMap fun x => losses j.source (underParameter x))
          ++ ((Node.method m).lossy j.source ++ losses j.source (underTypes m.thrown))
          ++ losses j.source (m.body?.toList.flatMap underBlock)))
      ↔ r ∈ losses j.source (underMethod m) := by
    intro r
    simp only [underMethod, Node.losses_cons, Node.losses_append, Node.losses_flatMap,
      Node.lossy_ofName, List.mem_append, List.nil_append]
    grind
  refine frame h.self.start_lt ?_
  simpa using of_mem_at hscript hmem

/-! ## Heads of types -/

theorem isName_typeWords (s : Setting) (h : TypeHead) :
    ∀ w ∈ Script.typeWords s h, Java.isName w = true := by
  unfold Script.typeWords
  split
  · simp
  · refine isName_keywords (fun k w hk => ?_) _
    unfold Script.typeWord at hk
    split at hk
    · cases hk
      rfl
    · cases hk
    · cases hk
    · cases hk
      exact isName_keyword k

theorem typeKeyword (s : Setting) (h : TypeHead) :
    Keeps j strict .ready .code [] [Script.typeKeyword s h] := by
  unfold Script.typeKeyword
  split
  · refine (swap rfl ?_).of_needs (Needs.swap (by decide))
    split <;> exact Scan.plain_of_calm rfl
  · exact keep rfl (by decide)

theorem ofTypeParameters (hs : j.source.Sealed) {h : TypeHead}
    (hsound : ∀ p ∈ h.typeParameters, Sound j.source ls (.typeParameter p)) :
    Keeps j strict .code .code [] (Script.ofTypeParameters s h) := by
  unfold Script.ofTypeParameters
  split
  · exact nil
  · split
    · exact reject _
    · have hlist : Keeps j strict .code .code (h.typeParameters.flatMap fun _ => [])
          (Script.commaList (h.typeParameters.map Script.ofTypeParameter)) :=
        commaList hs rfl fun p hp => ofTypeParameter (hsound p hp)
      have hnone : (h.typeParameters.flatMap fun _ => ([] : List Span)) = [] := by simp
      rw [hnone] at hlist
      simpa using ((token_code hs rfl (by decide)).append hlist).append
        (token_code hs rfl (by decide))

theorem supertypeList (hj : Orderly j ls strict) (hprofile : s.profile = j.profile) {ts : List Ty}
    (h : ∀ t ∈ ts, Sound j.source ls (.type t)) :
    Keeps j strict .code .code (losses j.source (underTypes ts))
      (Script.commaList (ts.map (Script.ofSupertype s))) := by
  rw [Node.underTypes_eq, Node.losses_flatMap]
  refine commaList hj.clear.isSealed rfl fun t ht => ?_
  have htype := ofType hj (h t ht)
  have hneeds := Needs.ofType (h t ht).self
  rw [← hprofile] at htype hneeds
  exact ((optional s.isCpp (write (Scan.plain_of_calm rfl))).append htype.of_code).of_needs
    (hneeds.optional _ _)

/-- A clause of supertypes with another word in front. -/
theorem ofClause (hj : Orderly j ls strict) (hprofile : s.profile = j.profile) {ts : List Ty}
    (h : ∀ t ∈ ts, Sound j.source ls (.type t)) (word target : String)
    (hword : calm word.toList = true ∧ word ≠ "") (htarget : calm target.toList = true) :
    Keeps j strict .ready .code (losses j.source (underTypes ts))
      (.swap word target :: Script.commaList (ts.map (Script.ofSupertype s))) :=
  ((swap hword.1 (Scan.plain_of_calm htarget)).of_needs (Needs.swap hword.2)).cons
    (supertypeList hj hprofile h)

theorem ends_ofSupertype (t : Ty) : Ends j (Script.ofSupertype s t) t.span.stop := by
  refine Ends.append ?_
  cases t with
  | primitive | simple | array | generic => exact ends_framed

/-- Space that is passed over is a region of its own. -/
theorem skipRegion (hs : j.source.Sealed) (o : Nat) :
    KeepsAt j strict o .code .code [⟨o, j.source.skipSpace false o⟩] [.skipSpace] := by
  rintro b a ls bs p q rfl hp hrun
  obtain rfl := Except.ok.inj (Job.run_singleton ▸ hrun)
  rw [Script.brackets_moves rfl, List.append_nil]
  exact hp.pass (hp.onCode.skipSpace hs false) (.region_nil (Source.le_skipSpace false _))

theorem ofSupertypes (hj : Orderly j ls strict) (hprofile : s.profile = j.profile) {h : TypeHead}
    (hextended : ∀ t ∈ h.extended, Sound j.source ls (.type t))
    (himplemented : ∀ t ∈ h.implemented, Sound j.source ls (.type t)) :
    Keeps j strict .code .code (losses j.source (underTypes h.extended) ++ h.gap j.source
        ++ losses j.source (underTypes h.implemented)) (Script.ofSupertypes s h) := by
  have hs := hj.clear.isSealed
  have hextends := space hs (ofClause hj hprofile hextended "extends" ":" (by decide) rfl)
  unfold Script.ofSupertypes
  cases hext : h.extended with
  | nil =>
    cases himp : h.implemented with
    | nil => simpa [TypeHead.gap, hext, underTypes] using nil
    | cons i is =>
      have h := space hs (ofClause hj hprofile himplemented "implements" ":" (by decide) rfl)
      simpa [TypeHead.gap, hext, himp, underTypes] using h
  | cons e es =>
    rw [hext] at hextends
    cases himp : h.implemented with
    | nil => simpa [TypeHead.gap, himp, underTypes] using hextends
    | cons i is =>
      have himplements := ofClause hj hprofile himplemented "implements" "," (by decide) rfl
      rw [himp] at himplements
      obtain ⟨t, ht⟩ : ∃ t, (e :: es).getLast? = some t := ⟨_, List.getLast?_eq_some_getLast (by simp)⟩
      have hends : Ends j ([Stroke.copySpace, .swap "extends" ":"]
          ++ Script.commaList ((e :: es).map (Script.ofSupertype s))) t.span.stop :=
        Ends.append (Ends.commaList ht (ends_ofSupertype t))
      have hrest := append_at (skipRegion hs t.span.stop) himplements.of_code
      have hboth := hextends.append_ends (by simp) hends hrest
      simpa [TypeHead.gap, hext, himp, ht] using hboth

theorem ofHead (hj : Orderly j ls strict) (hprofile : s.profile = j.profile) {d : TypeDecl}
    (h : Sound j.source ls (.decl d)) :
    KeepsAt j strict d.head.span.start .code .code
      (d.head.gap j.source ++ losses j.source (underHead d.head)) (Script.ofHead s d.head) := by
  have hs := hj.clear.isSealed
  have hchild : ∀ c ∈ Node.childrenOfHead d.head, Sound j.source ls c := fun c hc =>
    h.child (List.mem_append_left _ hc)
  have hchain : Chained j.source d.head.span.start d.head.modifiers := h.self.chain
  have hmodifiers := replaceModifiers hj hchain
    (fun x hx => (hchild (.modifier x) (by simp [Node.childrenOfHead, hx])).self)
    (isName_typeWords s d.head)
  have hname : Keeps j strict .code .code [] (.copySpace :: Script.ofName d.head.name) :=
    space hs (ofName_ready (hchild (Node.ofName d.head.name) (by simp [Node.childrenOfHead])).self)
  have hparameters : Keeps j strict .code .code [] (Script.ofTypeParameters s d.head) :=
    ofTypeParameters hs fun p hp => hchild (.typeParameter p) (by simp [Node.childrenOfHead, hp])
  have hsupertypes := ofSupertypes (h := d.head) hj hprofile
    (fun t ht => hchild (.type t) (by simp [Node.childrenOfHead, ht]))
    (fun t ht => hchild (.type t) (by simp [Node.childrenOfHead, ht]))
  have hscript := append_at (append_at (append_at (append_at (append_at hmodifiers
    (typeKeyword s d.head)) hname) hparameters) hsupertypes)
    (token_code (t := "\x7b") hs rfl (by decide))
  have hnames : losses j.source
      (d.head.typeParameters.flatMap fun p => [.typeParameter p, Node.ofName p.name]) = [] := by
    simp
  have hmem : ∀ r, r ∈ losses j.source (underModifiers d.head.modifiers) ++ [] ++ [] ++ []
      ++ (losses j.source (underTypes d.head.extended) ++ d.head.gap j.source
        ++ losses j.source (underTypes d.head.implemented)) ++ []
      ↔ r ∈ d.head.gap j.source ++ losses j.source (underHead d.head) := by
    intro r
    simp only [underHead, Node.losses_cons, Node.losses_append, hnames, Node.lossy_ofName,
      List.mem_append, List.not_mem_nil]
    grind
  simpa [Script.ofHead] using of_mem_at hscript hmem

/-! ## Types -/

/-- The end of a type, behind which a type that stands by itself takes the rest of the line. -/
theorem ofEnd (hs : j.source.Sealed) (s : Setting) (h : TypeHead) :
    Keeps j strict .code (if s.isCpp && Script.isOutermost s h then .trail else .code) []
      (Script.ofEnd s h) := by
  have hclose : Keeps j strict .code .code []
      [.copySpace, .swap "\x7d" (if s.isCpp then "\x7d;" else "\x7d")] := by
    refine space hs ((swap rfl ?_).of_needs (Needs.swap (by decide)))
    split <;> exact Scan.plain_of_calm rfl
  unfold Script.ofEnd
  split
  · exact hclose.append (((copyLine hs).cons trail).of_code)
  · exact hclose

/-- A type whose members keep the comments. -/
theorem typeMember (hj : Orderly j ls strict) (hprofile : s.profile = j.profile) {h : TypeHead}
    {body : List Member} (hsound : Sound j.source ls (.decl ⟨h, body⟩))
    (hbody : Keeps j strict .code .code (losses j.source (underMembers body))
      (Script.ofMembers { s with enclosing? := some h } h .priv body)) :
    Keeps j strict .ready (if s.isCpp && Script.isOutermost s h then .trail else .code)
      (losses j.source (underMember (.type h body))) (Script.ofMember s (.type h body)) := by
  rw [Script.ofMember, underMember]
  have hhead := ofHead (s := s) (d := ⟨h, body⟩) hj hprofile hsound
  refine frame hsound.self.start_lt ?_
  have hscript := append_at (append_at hhead hbody) (ofEnd hj.clear.isSealed s h)
  simpa [Node.lossy] using hscript

theorem labelFor (hs : j.source.Sealed) {k : Stage} {lost : List Span} {r : Script}
    (h : Keeps j strict .code k lost r) (hneeds : Needs j r) (s : Setting) (owner : TypeHead)
    (current : Access) (m : Member) :
    Keeps j strict .code k lost (Script.labelFor s owner current m ++ r) := by
  unfold Script.labelFor
  split
  · exact label hs h hneeds
  · exact h

end Keeps

theorem Needs.ofMember {j : Job} {m : Member} (h : Good j.source ls (Node.ofMember m)) (s : Setting) :
    Needs j (Script.ofMember s m) := by
  cases m with
  | field f =>
    rw [Script.ofMember]
    exact .framed h.start_lt
  | method m =>
    rw [Script.ofMember]
    exact .framed h.start_lt
  | type k body =>
    rw [Script.ofMember]
    exact .framed h.start_lt

/-- The name of a type stands before the types declared in it. -/
theorem Java.Good.span_ne {d : TypeDecl} (h : Sound s ls (.decl d)) {k : TypeHead}
    {body : List Member} (hk : .type k body ∈ d.body) :
    k.span ≠ d.head.span := by
  have hname : Node.ofName d.head.name ∈ Node.childrenOfHead d.head := by
    simp [Node.childrenOfHead]
  obtain ⟨hinside, hpairwise⟩ := Java.inside_of_inOrder h.self.inOrder
  have hle : d.head.name.span.stop ≤ k.span.start :=
    (List.pairwise_append.1 hpairwise).2.2 _ hname (Node.ofMember (.type k body))
      (List.mem_map_of_mem hk)
  have hstart : d.head.span.start ≤ d.head.name.span.start :=
    (hinside _ (List.mem_append_left _ hname)).1
  have hlt : d.head.name.span.start < d.head.name.span.stop :=
    (h.child (List.mem_append_left _ hname)).self.solid.lt
  intro hsame
  rw [hsame] at hle
  omega

namespace Keeps

variable {j : Job} {ls : List (Lexeme Rule)} {strict : Bool}

mutual

/-- A member. A type among the members of another does not stand by itself. -/
theorem ofMember {s : Setting} (hj : Orderly j ls strict) (hprofile : s.profile = j.profile)
    (hqualifier : calm s.qualifier.toList = true) {m : Member}
    (h : Sound j.source ls (Node.ofMember m))
    (hinner : ∀ k body, m = .type k body → Script.isOutermost s k = false) :
    Keeps j strict .ready .code (losses j.source (underMember m)) (Script.ofMember s m) := by
  cases m with
  | field f => simpa [Script.ofMember, underMember] using ofField hj hprofile h
  | method m => simpa [Script.ofMember, underMember] using ofMethod hj hprofile hqualifier h
  | type k body =>
    have hbody := ofMembers (s := { s with enclosing? := some k }) hj hprofile hqualifier rfl .priv body
      (fun m hm => h.child (List.mem_append_right _ (List.mem_map_of_mem hm)))
      fun k' body' hk' => Java.Good.span_ne h hk'
    simpa [hinner k body rfl] using typeMember hj hprofile h hbody

theorem ofMembers {s : Setting} (hj : Orderly j ls strict) (hprofile : s.profile = j.profile)
    (hqualifier : calm s.qualifier.toList = true) {owner : TypeHead}
    (howner : s.enclosing? = some owner) (current : Access) (ms : List Member)
    (h : ∀ m ∈ ms, Sound j.source ls (Node.ofMember m))
    (hinner : ∀ k body, .type k body ∈ ms → k.span ≠ owner.span) :
    Keeps j strict .code .code (losses j.source (underMembers ms))
      (Script.ofMembers s owner current ms) := by
  cases ms with
  | nil => exact nil
  | cons m ms =>
    obtain ⟨hm, hms⟩ := List.forall_mem_cons.1 h
    have hs := hj.clear.isSealed
    have hmember := space hs (ofMember hj hprofile hqualifier hm fun k body hk => by
      have hne := hinner k body (by simp [hk])
      simpa [Script.isOutermost, howner] using Ne.symm hne)
    have hrest := ofMembers hj hprofile hqualifier howner (Script.memberAccess owner m) ms hms
      fun k body hk => hinner k body (List.mem_cons_of_mem _ hk)
    have hlabel := labelFor hs hmember (Needs.ofMember hm.self s).space s owner current m
    simpa [Script.ofMembers, underMembers] using hlabel.append hrest

end

/-- A type by itself. -/
theorem ofDecl {s : Setting} (hj : Orderly j ls strict) (hprofile : s.profile = j.profile)
    (hqualifier : calm s.qualifier.toList = true) {d : TypeDecl} (h : Sound j.source ls (.decl d)) :
    Keeps j strict .ready (if s.isCpp && Script.isOutermost s d.head then .trail else .code)
      (losses j.source (Node.decl d).descendants) (Script.ofDecl s d) :=
  typeMember hj hprofile h (ofMembers (s := { s with enclosing? := some d.head }) hj hprofile hqualifier
    rfl .priv d.body (fun _ hm => h.child (List.mem_append_right _ (List.mem_map_of_mem hm)))
    fun _ _ hk => Java.Good.span_ne h hk)

end Keeps

end Transcribe
