/-
  Transcribe.Proofs.Verbatim — code that is written as it stands.

  C# spells most statements and expressions as Java does. A script that only keeps tokens and
  copies space writes the very text it passes over; what is left to see is that the scripts of
  statements and expressions are of that kind where no type, modifier or keyword changes, and
  that the blank put behind `new` is never needed.

  Whether a node by itself is spelled alike can be decided (`Node.isPlain`); a plain node is code
  (`isCode`: statements, expressions, the variables of a `for`) all nodes of which are. The target
  has to be C# and the job to leave tabs as they are (`Exact`).
  - `Moves`: what was read and what was written on the way from one pen to another.
  - `Copies`: a script that writes what it reads.
  - `text_of_plain`: a plain node is written as its span of the source.
-/

import Transcribe.Proofs.Cursor
import Transcribe.Proofs.Origin
import Transcribe.Proofs.Step

namespace Transcribe

open Text (Span Source byteLength isSpace)
open Java (Node Ty SimpleType SimpleName Expr Stmt Fragment Variables ForInit)
open Target (Profile)

/-! ## What a pen has read and written -/

structure Job.Moves (j : Job) (p q : Pen) (read written : List Char) : Prop where
  rest : ∃ cs, j.source.rest? p.position = some (read ++ cs)
  position : q.position = p.position + byteLength read
  text : q.sink.text = p.sink.text ++ String.ofList written
  dedent : q.dedent = p.dedent
  trailing : p.trailing = false → q.trailing = false

namespace Job.Moves

variable {j : Job} {p q q' : Pen} {a b c d : List Char}

theorem refl (h : j.source.Boundary p.position) : j.Moves p p [] [] :=
  ⟨h, rfl, by simp, rfl, id⟩

theorem trans (h : j.Moves p q a b) (h' : j.Moves q q' c d) : j.Moves p q' (a ++ c) (b ++ d) := by
  obtain ⟨r, hr⟩ := h.rest
  obtain ⟨r', hr'⟩ := h'.rest
  have hsplit : r = c ++ r' := by
    have := Source.rest?_add hr
    rw [← h.position, hr'] at this
    exact (Option.some.inj this).symm
  refine ⟨⟨r', by rw [hr, hsplit, List.append_assoc]⟩, ?_, ?_, h'.dedent.trans h.dedent,
    fun ht => h'.trailing (h.trailing ht)⟩
  · rw [h'.position, h.position, Text.byteLength_append, Nat.add_assoc]
  · rw [h'.text, h.text, String.append_assoc, String.ofList_append]

theorem boundary (h : j.Moves p q a b) : j.source.Boundary q.position := by
  obtain ⟨r, hr⟩ := h.rest
  exact ⟨r, by rw [h.position, Source.rest?_add hr]⟩

theorem slice? (h : j.Moves p q a b) : j.source.slice? ⟨p.position, q.position⟩ = some a := by
  obtain ⟨r, hr⟩ := h.rest
  exact Source.slice?_eq_some hr h.position

end Job.Moves

namespace Job

variable {j : Job} {p q : Pen}

theorem moves_swap {t t' : String} (h : j.stroke p (.swap t t') = .ok q) :
    j.Moves p q t.toList t'.toList := by
  obtain ⟨hrest, rfl⟩ := swap_ok h
  exact ⟨hrest, rfl, by simp, rfl, id⟩

theorem moves_skipSpace (h : j.source.Boundary p.position) :
    ∃ cs, j.Moves p (j.skipSpace false p) cs [] ∧
      ((∀ c ∈ cs, isSpace c = false ∧ c ≠ '/') → cs = []) := by
  obtain ⟨xs, hxs⟩ := h
  obtain ⟨ys, zs, hsplit, hlen⟩ : ∃ ys zs, xs = ys ++ zs ∧
      Text.spaceLength false .space xs = byteLength ys := by
    obtain ⟨zs, hlen, hskips⟩ := Text.skips_spaceLength false .space xs
    obtain ⟨ys, rfl⟩ := Text.skips_suffix hskips
    exact ⟨ys, zs, rfl, by rw [Text.byteLength_append] at hlen; omega⟩
  refine ⟨ys, ⟨⟨zs, hsplit ▸ hxs⟩, ?_, by simp [skipSpace], rfl, id⟩, fun hplain => ?_⟩
  · simp [skipSpace, Source.skipSpace, Source.forward, hxs, hlen]
  · cases ys with
    | nil => rfl
    | cons c ys =>
      obtain ⟨hspace, hslash⟩ := hplain c List.mem_cons_self
      rw [hsplit, List.cons_append,
        Text.spaceLength_eq_zero hspace fun h => absurd h hslash, Text.byteLength_cons] at hlen
      have := c.utf8Size_pos
      omega

theorem moves_copySpace (hx : j.profile.expandTabs = false) (hd : p.dedent = 0)
    (hb : j.source.Boundary p.position) (h : j.copySpace false p = .ok q) :
    ∃ cs, j.Moves p q cs cs := by
  obtain ⟨cs, hcs, -⟩ := moves_skipSpace hb
  have hslice := hcs.slice?
  rw [skipSpace, Pen.moveTo_position] at hslice
  rw [copySpace, hslice] at h
  cases h
  refine ⟨cs, ⟨hcs.rest, hcs.position, ?_, ?_, ?_⟩⟩ <;>
    simp [writeSpace, hx, hd, Pen.write, Pen.moveTo]

end Job

/-! ## Scripts that copy -/

def Copies (j : Job) (r : Script) : Prop :=
  ∀ ⦃p q⦄, p.dedent = 0 → j.source.Boundary p.position → j.run r p = .ok q → ∃ cs, j.Moves p q cs cs

namespace Copies

variable {j : Job} {r r' : Script} {st : Stroke}

theorem nil : Copies j [] := by
  rintro p q - hb h
  cases h
  exact ⟨[], .refl hb⟩

theorem append (h : Copies j r) (h' : Copies j r') : Copies j (r ++ r') := by
  intro p q hd hb hrun
  obtain ⟨mid, hmid, hrest⟩ := Job.run_append_eq_ok.1 hrun
  obtain ⟨a, ha⟩ := h hd hb hmid
  obtain ⟨b, hb⟩ := h' (ha.dedent.trans hd) ha.boundary hrest
  exact ⟨a ++ b, ha.trans hb⟩

theorem flatMap {α : Type} {as : List α} {f : α → Script} (h : ∀ x ∈ as, Copies j (f x)) :
    Copies j (as.flatMap f) := by
  induction as with
  | nil => exact nil
  | cons x as ih =>
    exact (h x List.mem_cons_self).append (ih fun y hy => h y (List.mem_cons_of_mem x hy))

theorem keep (t : String) : Copies j [.keep t] := by
  intro p q _ _ h
  rw [Job.run_singleton] at h
  exact ⟨t.toList, Job.moves_swap h⟩

/-- A stroke that stops makes no promise. -/
theorem reject (what : Rejection) (hmem : .reject what ∈ r) : Copies j r := by
  intro p q _ _ h
  obtain ⟨a, b, rfl⟩ := List.append_of_mem hmem
  obtain ⟨_, -, h⟩ := Job.run_append_eq_ok.1 h
  obtain ⟨_, h, -⟩ := Job.run_cons_eq_ok.1 h
  exact absurd h Job.stop_ne_ok

theorem keepIf (t : String) : Copies j [.keepIf t] := by
  intro p q hd hb h
  rw [Job.run_singleton, Job.stroke] at h
  split at h
  · exact ⟨t.toList, Job.moves_swap h⟩
  · cases h
    exact ⟨[], .refl hb⟩

/-- A node's script copies if its body does at the start of the span. -/
theorem framed_of_start {span : Span} (h : ∀ ⦃p q⦄, p.position = span.start → p.dedent = 0 →
      j.source.Boundary p.position → j.run r p = .ok q → ∃ cs, j.Moves p q cs cs) :
    Copies j (Script.framed span r) := by
  intro p q hd hb hrun
  obtain ⟨mid, hstart, hbody, rfl, -⟩ := Job.framed_ok hrun
  obtain ⟨cs, hcs⟩ := h (p := { p.note with trailing := false }) hstart hd hb hbody
  exact ⟨cs, hcs.rest, hcs.position, hcs.text, hcs.dedent, fun _ => hcs.trailing rfl⟩

theorem framed (span : Span) (h : Copies j r) : Copies j (Script.framed span r) :=
  framed_of_start fun _ _ _ hd hb hrun => h hd hb hrun

theorem ofName (n : SimpleName) : Copies j (Script.ofName n) := framed n.span (keep n.text)

section Space

variable (hx : j.profile.expandTabs = false)
include hx

theorem copySpace : Copies j [.copySpace] := by
  intro p q hd hb h
  rw [Job.run_singleton] at h
  exact Job.moves_copySpace hx hd hb h

theorem space (h : Copies j r) : Copies j (.copySpace :: r) := (copySpace hx).append h

theorem token (t : String) : Copies j (Script.token t) := space hx (keep t)

theorem commaList {α : Type} {as : List α} {f : α → Script} (h : ∀ x ∈ as, Copies j (f x)) :
    Copies j (Script.commaList (as.map f)) := by
  cases as with
  | nil => exact nil
  | cons x as =>
    rw [List.map_cons, Script.commaList, List.flatMap_map]
    refine (space hx (h x List.mem_cons_self)).append (flatMap fun y hy => ?_)
    exact (token hx ",").append (space hx (h y (List.mem_cons_of_mem x hy)))

theorem keepBrackets (n : Nat) : Copies j (Script.keepBrackets n) := by
  induction n with
  | zero => exact nil
  | succ n ih =>
    rw [Script.keepBrackets, List.replicate_succ, List.flatten_cons]
    exact ((token hx "[").append (token hx "]")).append ih

theorem ofArgumentList {α : Type} {as : List α} {f : α → Script} (h : ∀ x ∈ as, Copies j (f x)) :
    Copies j (Script.ofArgumentList (as.map f)) :=
  ((token hx "(").append (commaList hx h)).append (token hx ")")

theorem ofItems {α : Type} {as : List α} {f : α → Script} (h : ∀ x ∈ as, Copies j (f x)) :
    Copies j (Script.ofItems (as.map f)) :=
  (((keep _).append (commaList hx h)).append (space hx (keepIf ","))).append (token hx "\x7d")

theorem ofOperator (h : Copies j r) (h' : Copies j r') (op : String)
    (rejected? : Option Rejection) : Copies j (Script.ofOperator r op rejected? r') := by
  cases rejected? with
  | some what => exact reject what (by simp [Script.ofOperator])
  | none =>
    rw [Script.ofOperator]
    exact (h.append ((token hx op).append (copySpace hx))).append h'

/-- The word `new` with space behind it: no blank is put there. -/
theorem newWord {span : Span} (h : Copies j r)
    (hspace : span.start + 3 < j.source.skipSpace false (span.start + 3)) :
    Copies j (Script.framed span (Script.newWord ++ r)) := by
  refine framed_of_start fun p q hstart hd hb hrun => ?_
  obtain ⟨mid, hnew, hrest⟩ := Job.run_append_eq_ok.1 hrun
  obtain ⟨at3, hword, hdelimiter⟩ := Job.run_cons_eq_ok.1 hnew
  have hmoves := Job.moves_swap hword
  have hat : at3.position = span.start + 3 := hstart ▸ hmoves.position
  rw [Job.run_singleton, Job.stroke, Job.copyDelimiter] at hdelimiter
  cases hcopy : j.copySpace false at3 with
  | error e => rw [hcopy] at hdelimiter; cases hdelimiter
  | ok q' =>
    -- The space behind the word is passed over, so the cursor has moved.
    have hd3 : at3.dedent = 0 := hmoves.dedent.trans hd
    obtain ⟨cs, hcs⟩ := Job.moves_copySpace hx hd3 hmoves.boundary hcopy
    have hmoved : q'.movedFrom at3 = true := by
      have hpos : q'.position = j.source.skipSpace false at3.position :=
        Job.copySpace_position hcopy
      rw [hat] at hpos
      simp only [Pen.movedFrom, hpos, hat, bne_iff_ne]
      omega
    rw [hcopy] at hdelimiter
    simp only [bind, Except.bind, pure, Except.pure, hmoved, if_true] at hdelimiter
    cases hdelimiter
    obtain ⟨ds, hds⟩ := h (hcs.dedent.trans hd3) hcs.boundary hrest
    exact ⟨_, (hmoves.trans hcs).trans hds⟩

end Space

end Copies

/-! ## Types -/

def Text.isTight (cs : List Char) : Bool := cs.all fun c => !isSpace c && c != '/'

/-- Whether the node itself is spelled alike in the target: its children apart, nothing in it
changes. -/
def Java.Node.isPlain (p : Profile) (s : Source) : Node → Bool
  | .locals _ v => v.modifiers.isEmpty
  | .stmt (.locals _ v) => v.modifiers.isEmpty
  | .stmt (.forEach _ _ _ _) => false
  | .expr (.instanceOf _ _ _) => false
  | .type (.primitive _ k) => p.primitive (Java.word k) == Java.word k
  | .type (.simple t) =>
    (p.renamed? (t.name.joined ".")).all (· == t.name.joined ".") &&
      (s.slice? t.span).all Text.isTight
  | _ => true

def Java.Node.Plain (p : Profile) (s : Source) (n : Node) : Prop :=
  n.isPlain p s = true ∧
    ∀ e, n = .expr e → e.creates = true → e.span.start + 3 < s.skipSpace false (e.span.start + 3)

namespace Job

variable {j : Job} {p q : Pen}

theorem moves_drop {t : String} (h : j.stroke p (.drop t) = .ok q) : j.Moves p q t.toList [] :=
  moves_swap h

/-- A dotted name that was left out: where no space and no comment stood in it, its segments and
dots were read and nothing else. -/
theorem moves_dropSegments (segments : List SimpleName) {p : Pen}
    (hb : j.source.Boundary p.position)
    (h : j.run ([.skipSpace, .drop ".", .skipSpace].intercalate
      (segments.map fun s => [.drop s.text])) p = .ok q) :
    ∃ cs, j.Moves p q cs [] ∧
      (Text.isTight cs = true → cs = (".".intercalate (segments.map (·.text))).toList) := by
  match segments with
  | [] =>
    cases h
    exact ⟨[], .refl hb, fun _ => rfl⟩
  | [s] =>
    rw [List.map_singleton, List.intercalate_singleton, run_singleton] at h
    exact ⟨s.text.toList, moves_drop h, fun _ => by simp⟩
  | s :: s' :: rest =>
    simp only [List.map_cons, List.intercalate_cons_cons, List.append_assoc] at h
    obtain ⟨p₁, hname, h⟩ := run_append_eq_ok.1 h
    obtain ⟨p₂, hgaps, h⟩ := run_append_eq_ok.1 h
    obtain ⟨_, hgap, hgaps⟩ := run_cons_eq_ok.1 hgaps
    obtain ⟨p₃, hdot, hgap'⟩ := run_cons_eq_ok.1 hgaps
    rw [run_singleton] at hname hgap'
    obtain rfl := Except.ok.inj hgap
    obtain rfl := Except.ok.inj hgap'
    have hname := moves_drop hname
    obtain ⟨a, ha, htight⟩ := moves_skipSpace hname.boundary
    have hdot := moves_drop hdot
    obtain ⟨b, hb, htight'⟩ := moves_skipSpace hdot.boundary
    obtain ⟨cs, hcs, hrest⟩ := moves_dropSegments (s' :: rest) hb.boundary h
    refine ⟨_, (((hname.trans ha).trans hdot).trans hb).trans hcs, fun hall => ?_⟩
    simp only [Text.isTight, List.all_append, Bool.and_eq_true] at hall
    obtain ⟨⟨⟨⟨-, ha⟩, -⟩, hb⟩, hcs⟩ := hall
    have hclear : ∀ {w : List Char}, (w.all fun c => !isSpace c && c != '/') = true →
        ∀ c ∈ w, isSpace c = false ∧ c ≠ '/' := fun hw c hc => by
      simpa using List.all_eq_true.1 hw c hc
    rw [htight (hclear ha), htight' (hclear hb), hrest hcs]
    simp [String.intercalate_cons_cons]

end Job

namespace Copies

variable {j : Job}

theorem ofSimpleType (hcpp : j.profile.isCpp = false) {t : SimpleType}
    (h : (Node.type (.simple t)).isPlain j.profile j.source = true) :
    Copies j (Script.ofSimpleType j.profile t) := by
  intro p q _ hb hrun
  obtain ⟨hname, htight⟩ := Bool.and_eq_true_iff.1 h
  obtain ⟨mid, hstart, hbody, rfl, hstop⟩ := Job.framed_ok hrun
  obtain ⟨mid', hdrop, hwrite⟩ := Job.run_append_eq_ok.1 hbody
  rw [Job.run_singleton] at hwrite
  obtain rfl := Except.ok.inj hwrite
  obtain ⟨cs, hcs, hspelled⟩ := Job.moves_dropSegments (p := { p.note with trailing := false })
    t.name.segments hb hdrop
  have hslice := hcs.slice?
  rw [show mid'.position = t.span.stop from hstop (hcs.trailing rfl)] at hslice
  have hspan : j.source.slice? t.span = some cs := by
    rw [show t.span = ⟨p.position, t.span.stop⟩ by rw [hstart]]
    exact hslice
  rw [hspan] at htight
  have hclass : Script.className j.profile t = t.name.joined "." := by
    rw [Script.className, hcpp]
    cases hrenamed : j.profile.renamed? (t.name.joined ".") with
    | none => rfl
    | some spelling => simpa [hrenamed] using hname
  have hcs' : cs = (t.name.joined ".").toList := hspelled htight
  refine ⟨cs, hcs.rest, hcs.position, ?_, hcs.dedent, fun _ => hcs.trailing rfl⟩
  have htext := hcs.text
  simp only [String.ofList_nil, String.append_empty] at htext
  simp [htext, hclass, hcs', Pen.note]

theorem marked (hcpp : j.profile.isCpp = false) {r : Script} (t : Ty) (h : Copies j r) :
    Copies j (Script.marked j.profile t r) := by
  simpa [Script.marked, hcpp] using h

mutual

theorem ofType (hx : j.profile.expandTabs = false) (hcpp : j.profile.isCpp = false) (t : Ty)
    (h : (Node.type t).All (Node.Plain j.profile j.source)) :
    Copies j (Script.ofType j.profile t) := by
  cases t with
  | primitive span k =>
    have hsame : j.profile.primitive (Java.word k) = Java.word k :=
      beq_iff_eq.1 h.self.1
    rw [Script.ofType, hsame]
    exact framed span (keep _)
  | simple t =>
    rw [Script.ofType]
    exact ofSimpleType hcpp h.self.1
  | array span element dims =>
    rw [Script.ofType, if_neg (by simp [hcpp])]
    exact framed span
      ((ofType hx hcpp element (h.child List.mem_cons_self)).append (keepBrackets hx dims))
  | generic span base arguments =>
    rw [Script.ofType, Tracks.ofArguments_eq]
    have hbase : (Node.type (.simple base)).All (Node.Plain j.profile j.source) :=
      h.child List.mem_cons_self
    have harguments := ofTypes hx hcpp arguments fun t ht =>
      h.child (List.mem_cons_of_mem _ (List.mem_map.2 ⟨t, ht, rfl⟩))
    exact framed span ((((ofSimpleType hcpp hbase.self.1).append (token hx "<")).append
      (commaList hx fun t ht => marked hcpp t (harguments t ht))).append (token hx ">"))

theorem ofTypes (hx : j.profile.expandTabs = false) (hcpp : j.profile.isCpp = false)
    (ts : List Ty) (h : ∀ t ∈ ts, (Node.type t).All (Node.Plain j.profile j.source)) :
    ∀ t ∈ ts, Copies j (Script.ofType j.profile t) := by
  cases ts with
  | nil => simp
  | cons t ts =>
    obtain ⟨ht, hts⟩ := List.forall_mem_cons.1 h
    exact List.forall_mem_cons.2 ⟨ofType hx hcpp t ht, ofTypes hx hcpp ts hts⟩

end

theorem ofMarkedType (hx : j.profile.expandTabs = false) (hcpp : j.profile.isCpp = false) (t : Ty)
    (h : (Node.type t).All (Node.Plain j.profile j.source)) :
    Copies j (Script.ofMarkedType j.profile t) :=
  marked hcpp t (ofType hx hcpp t h)

end Copies

/-! ## Expressions -/

structure Job.Exact (j : Job) (s : Setting) : Prop where
  tabs : j.profile.expandTabs = false
  csharp : j.profile.isCpp = false
  profile : s.profile = j.profile

theorem Job.Exact.isCpp {j : Job} {s : Setting} (h : j.Exact s) : s.isCpp = false := by
  rw [Setting.isCpp, h.profile, h.csharp]

namespace Copies

variable {j : Job} {s : Setting}

theorem selector (hj : j.Exact s) (e : Expr) : Copies j (Script.selector s e) := by
  rw [Script.selector, Script.separator, hj.isCpp, if_neg (by simp)]
  exact (token hj.tabs ".").append (copySpace hj.tabs)

mutual

theorem ofExpr (hj : j.Exact s) (e : Expr)
    (h : (Node.expr e).All (Node.Plain j.profile j.source)) : Copies j (Script.ofExpr s e) := by
  have hx := hj.tabs
  cases e with
  | literal span kind text =>
    rw [Script.ofExpr, Script.literalWord, hj.isCpp, Bool.false_and, if_neg (by simp)]
    exact framed span (keep text)
  | name n => exact ofName n
  | self span => exact framed span (keep "this")
  | field span target name =>
    rw [Script.ofExpr]
    have htarget := ofExpr hj target h.part
    exact framed span ((htarget.append (selector hj target)).append (ofName name))
  | call span name arguments =>
    rw [Script.ofExpr, Tracks.ofExprs_eq]
    have harguments := ofExprs hj arguments fun _ he => h.part
    exact framed span ((ofName name).append (ofArgumentList hx harguments))
  | invoke span target name arguments =>
    rw [Script.ofExpr, Tracks.ofExprs_eq]
    have htarget := ofExpr hj target h.part
    have harguments := ofExprs hj arguments fun _ he => h.part
    exact framed span (((htarget.append (selector hj target)).append (ofName name)).append
      (ofArgumentList hx harguments))
  | create span type arguments =>
    rw [Script.ofExpr, Tracks.ofExprs_eq, hj.profile, List.append_assoc]
    have htype := ofType hx hj.csharp type h.part
    have harguments := ofExprs hj arguments fun _ he => h.part
    exact newWord hx (htype.append (ofArgumentList hx harguments)) (h.self.2 _ rfl rfl)
  | newSized span element lengths extraDims =>
    rw [Script.ofExpr, Tracks.ofExprs_eq, hj.isCpp, if_neg (by simp), Script.newSizedCsharp,
      hj.profile, List.append_assoc, List.append_assoc, List.flatMap_map]
    have htype := ofType hx hj.csharp element h.part
    have hlengths := ofExprs hj lengths fun _ he => h.part
    have hsizes : Copies j (lengths.flatMap fun e =>
        Script.token "[" ++ .copySpace :: Script.ofExpr s e ++ Script.token "]") :=
      flatMap fun e he => ((token hx "[").append (space hx (hlengths e he))).append (token hx "]")
    exact newWord hx (htype.append (hsizes.append (keepBrackets hx extraDims))) (h.self.2 _ rfl rfl)
  | newListed span element extraDims listSpan items =>
    rw [Script.ofExpr, Tracks.ofExprs_eq, hj.isCpp, if_neg (by simp), Script.newListedCsharp,
      hj.profile, List.append_assoc, List.append_assoc]
    have htype := ofType hx hj.csharp element h.part
    have hlist : (Node.expr (.arrayInit listSpan items)).All (Node.Plain j.profile j.source) :=
      h.part
    have hitems := ofExprs hj items fun _ he => hlist.part
    exact newWord hx (htype.append ((keepBrackets hx extraDims).append
      (space hx (framed listSpan (ofItems hx hitems))))) (h.self.2 _ rfl rfl)
  | arrayInit span items =>
    rw [Script.ofExpr, Tracks.ofExprs_eq]
    have hitems := ofExprs hj items fun _ he => h.part
    exact framed span (ofItems hx hitems)
  | index span array position =>
    rw [Script.ofExpr]
    have harray := ofExpr hj array h.part
    have hposition := ofExpr hj position h.part
    exact framed span (((harray.append (token hx "[")).append (space hx hposition)).append
      (token hx "]"))
  | assign span left op right =>
    rw [Script.ofExpr]
    have hleft := ofExpr hj left h.part
    have hright := ofExpr hj right h.part
    exact framed span (ofOperator hx hleft hright _ _)
  | binary span left op right =>
    rw [Script.ofExpr]
    have hleft := ofExpr hj left h.part
    have hright := ofExpr hj right h.part
    exact framed span (ofOperator hx hleft hright _ _)
  | instanceOf span operand type => cases h.self.1
  | prefixed span op operand =>
    rw [Script.ofExpr]
    have hoperand := ofExpr hj operand h.part
    exact framed span ((keep _).append (space hx hoperand))
  | postfixed span operand op =>
    rw [Script.ofExpr]
    have hoperand := ofExpr hj operand h.part
    exact framed span (hoperand.append (token hx _))
  | conditional span condition yes no =>
    rw [Script.ofExpr]
    have hcondition := ofExpr hj condition h.part
    have hyes := ofExpr hj yes h.part
    have hno := ofExpr hj no h.part
    exact framed span ((((hcondition.append (token hx "?")).append (space hx hyes)).append
      (token hx ":")).append (space hx hno))
  | paren span inner =>
    rw [Script.ofExpr]
    have hinner := ofExpr hj inner h.part
    exact framed span (((keep _).append (space hx hinner)).append (token hx ")"))
  | cast span type operand =>
    rw [Script.ofExpr, hj.profile]
    have htype := ofMarkedType hx hj.csharp type h.part
    have hoperand := ofExpr hj operand h.part
    exact framed span ((((keep _).append (space hx htype)).append (token hx ")")).append
      (space hx hoperand))

theorem ofExprs (hj : j.Exact s) (es : List Expr)
    (h : ∀ e ∈ es, (Node.expr e).All (Node.Plain j.profile j.source)) :
    ∀ e ∈ es, Copies j (Script.ofExpr s e) := by
  cases es with
  | nil => simp
  | cons e es =>
    obtain ⟨he, hes⟩ := List.forall_mem_cons.1 h
    exact List.forall_mem_cons.2 ⟨ofExpr hj e he, ofExprs hj es hes⟩

end

end Copies

/-! ## Statements -/

namespace Copies

variable {j : Job} {s : Setting}

theorem ofFragment (hj : j.Exact s) (hmark : s.marking = false) (f : Fragment)
    (h : (Node.fragment f).All (Node.Plain j.profile j.source)) :
    Copies j (Script.ofFragment s f) := by
  rw [Script.ofFragment, hmark, if_neg (by simp), List.nil_append]
  by_cases hn : f.extraDims > 0
  · rw [if_pos hn]
    exact framed f.span (reject .variableDims (by simp))
  · rw [if_neg hn]
    refine framed f.span ((ofName f.name).append ?_)
    cases hinit : f.init? with
    | none => exact nil
    | some e =>
      rw [Script.ofInit, hj.isCpp, Bool.false_and, if_neg (by simp)]
      have he := ofExpr hj e h.part
      exact (token hj.tabs "=").append (space hj.tabs he)

/-- Variables without modifiers. -/
theorem ofLocals (hj : j.Exact s) (v : Variables) (hnone : v.modifiers = [])
    (h : ∀ c ∈ Node.ofVariables v, c.All (Node.Plain j.profile j.source)) :
    Copies j (Script.ofLocals s v) := by
  have hwords : Script.ofLocals s v = Script.ofType s.profile v.type ++ Script.commaList
      (v.fragments.map (Script.ofFragment { s with marking := Script.needsMark s v.type })) := by
    rw [Script.ofLocals, hnone]
    simp [Script.ofVariables, hnone, Script.replaceModifiers, Java.hasKeyword]
  have htype : Copies j (Script.ofType s.profile v.type) := by
    rw [hj.profile]
    exact ofType hj.tabs hj.csharp v.type (h _ (by simp [Node.ofVariables]))
  have hexact : j.Exact { s with marking := Script.needsMark s v.type } :=
    ⟨hj.tabs, hj.csharp, hj.profile⟩
  rw [hwords]
  refine htype.append (commaList hj.tabs fun f hf => ofFragment hexact ?_ f ?_)
  · simp [Script.needsMark, hj.isCpp]
  · exact h _ (by simp [Node.ofVariables, hf])

theorem ofExprList (hj : j.Exact s) (es : List Expr)
    (h : ∀ e ∈ es, (Node.expr e).All (Node.Plain j.profile j.source)) :
    Copies j (Script.commaList (Script.ofExprs s es)) := by
  rw [Tracks.ofExprs_eq]
  exact commaList hj.tabs (ofExprs hj es h)

theorem ofForInit (hj : j.Exact s) (init : ForInit)
    (h : ∀ c ∈ Node.ofForInit init, c.All (Node.Plain j.profile j.source)) :
    Copies j (Script.commaList (Script.ofForInit s init)) := by
  cases init with
  | exprs es => exact ofExprList hj es fun e he => h _ (by simp [Node.ofForInit, he])
  | locals span vars =>
    have hvars : (Node.locals span vars).All (Node.Plain j.profile j.source) :=
      h _ (by simp [Node.ofForInit])
    have hlocals := ofLocals hj vars (List.isEmpty_iff.1 hvars.self.1) fun c hc => hvars.child hc
    simpa [Script.ofForInit, Script.commaList] using space hj.tabs (framed span hlocals)

theorem ofCondition (hj : j.Exact s) (e : Expr)
    (h : (Node.expr e).All (Node.Plain j.profile j.source)) : Copies j (Script.ofCondition s e) :=
  ((token hj.tabs "(").append (space hj.tabs (ofExpr hj e h))).append (token hj.tabs ")")

/-- An expression that may be left out. -/
theorem ofOption (hj : j.Exact s) (e? : Option Expr)
    (h : ∀ e, e? = some e → (Node.expr e).All (Node.Plain j.profile j.source)) :
    Copies j (e?.toList.flatMap fun e => .copySpace :: Script.ofExpr s e) :=
  flatMap fun e he => space hj.tabs (ofExpr hj e (h e (Option.mem_toList.1 he)))

theorem ofJump (hj : j.Exact s) (text : String) (what : Rejection) (label? : Option SimpleName) :
    Copies j (Script.ofJump text what label?) := by
  cases label? with
  | some label => exact reject what (List.mem_singleton.2 rfl)
  | none => exact (keep text).append (token hj.tabs ";")

mutual

theorem ofStmt (hj : j.Exact s) (t : Stmt)
    (h : (Node.stmt t).All (Node.Plain j.profile j.source)) : Copies j (Script.ofStmt s t) := by
  have hx := hj.tabs
  cases t with
  | block span body =>
    rw [Script.ofStmt]
    refine framed span ?_
    split
    · have hbody := ofStmts hj body fun _ ht => h.part
      exact ((keep _).append hbody).append (token hx _)
    · intro p q _ _ hrun
      rw [Job.run_singleton] at hrun
      exact absurd hrun Job.stop_ne_ok
  | locals span vars =>
    rw [Script.ofStmt]
    have hvars := ofLocals hj vars (List.isEmpty_iff.1 h.self.1) fun c hc => h.child hc
    exact framed span (hvars.append (token hx ";"))
  | expr span e =>
    rw [Script.ofStmt]
    have he := ofExpr hj e h.part
    exact framed span (he.append (token hx ";"))
  | ifThen span condition yes =>
    rw [Script.ofStmt]
    have hcondition := ofCondition hj condition h.part
    have hyes := ofStmt hj yes h.part
    exact framed span (((keep _).append hcondition).append (space hx hyes))
  | ifElse span condition yes no =>
    rw [Script.ofStmt]
    have hcondition := ofCondition hj condition h.part
    have hyes := ofStmt hj yes h.part
    have hno := ofStmt hj no h.part
    exact framed span (((((keep _).append hcondition).append (space hx hyes)).append
      (token hx "else")).append (space hx hno))
  | whileLoop span condition body =>
    rw [Script.ofStmt]
    have hcondition := ofCondition hj condition h.part
    have hbody := ofStmt hj body h.part
    exact framed span (((keep _).append hcondition).append (space hx hbody))
  | doLoop span body condition =>
    rw [Script.ofStmt]
    have hbody := ofStmt hj body h.part
    have hcondition := ofCondition hj condition h.part
    exact framed span (((((keep _).append (space hx hbody)).append (token hx "while")).append
      hcondition).append (token hx ";"))
  | forLoop span init condition? updates body =>
    rw [Script.ofStmt]
    have hinit := ofForInit hj init fun _ hc => h.part
    have hcondition := ofOption hj condition? fun _ he => h.part
    have hupdates := ofExprList hj updates fun _ he => h.part
    have hbody := ofStmt hj body h.part
    exact framed span (((((((((keep _).append (token hx "(")).append hinit).append
      (token hx ";")).append hcondition).append (token hx ";")).append hupdates).append
      (token hx ")")).append (space hx hbody))
  | forEach span item items body => cases h.self.1
  | ret span value? =>
    rw [Script.ofStmt]
    have hvalue := ofOption hj value? fun _ he => h.part
    exact framed span (((keep _).append hvalue).append (token hx ";"))
  | leave span label? => exact framed span (ofJump hj _ _ label?)
  | next span label? => exact framed span (ofJump hj _ _ label?)
  | throwing span e =>
    rw [Script.ofStmt]
    have he := ofExpr hj e h.part
    exact framed span (((keep _).append (space hx he)).append (token hx ";"))
  | empty span => exact framed span (keep ";")

theorem ofStmts (hj : j.Exact s) (ts : List Stmt)
    (h : ∀ t ∈ ts, (Node.stmt t).All (Node.Plain j.profile j.source)) :
    Copies j (Script.ofStmts s ts) := by
  cases ts with
  | nil => exact nil
  | cons t ts =>
    obtain ⟨ht, hts⟩ := List.forall_mem_cons.1 h
    rw [Script.ofStmts]
    exact (space hj.tabs (ofStmt hj t ht)).append (ofStmts hj ts hts)

end

end Copies

/-! ## Nodes -/

/-- Whether a script reads the text where it begins, or stops there. -/
def Script.reads : Script → Bool
  | .enter _ :: r => reads r
  | .swap _ _ :: _ | .reject _ :: _ | .breach _ :: _ => true
  | _ => false

namespace Script

theorem reads_append {r : Script} (r' : Script) (h : r.reads = true) : (r ++ r').reads = true := by
  fun_induction reads r with
  | case1 span r ih => simpa [reads] using ih h
  | case2 | case3 | case4 => rfl
  | case5 => cases h

theorem reads_framed (span : Text.Span) {r : Script} (h : r.reads = true) :
    (framed span r).reads = true :=
  reads_append [.leave span] (r := .enter span :: r) h

theorem boundary_of_reads {j : Job} {r : Script} (h : r.reads = true) {p q : Pen}
    (hrun : j.run r p = .ok q) : j.source.Boundary p.position := by
  fun_induction reads r generalizing p with
  | case1 span r ih =>
    obtain ⟨mid, hmid, hrest⟩ := Job.run_cons_eq_ok.1 hrun
    obtain ⟨-, rfl⟩ := Job.enter_eq_ok.1 hmid
    exact ih (p := { p.note with trailing := false }) h hrest
  | case2 =>
    obtain ⟨mid, hmid, -⟩ := Job.run_cons_eq_ok.1 hrun
    obtain ⟨cs, hcs⟩ := (Job.swap_ok hmid).1
    exact ⟨_, hcs⟩
  | case3 | case4 =>
    obtain ⟨mid, hmid, -⟩ := Job.run_cons_eq_ok.1 hrun
    exact absurd hmid Job.stop_ne_ok
  | case5 => cases h

/-- An expression begins with a token. -/
theorem reads_ofExpr (s : Setting) (e : Expr) : (ofExpr s e).reads = true := by
  cases e with
  | literal span kind text =>
    rw [ofExpr, literalWord]
    split <;> rfl
  | field span target name =>
    rw [ofExpr, List.append_assoc]
    exact reads_framed span (reads_append _ (reads_ofExpr s target))
  | invoke span target name arguments =>
    rw [ofExpr, List.append_assoc, List.append_assoc]
    exact reads_framed span (reads_append _ (reads_ofExpr s target))
  | newSized span element lengths extraDims =>
    rw [ofExpr]
    refine reads_framed span ?_
    split
    · unfold newSizedCpp
      split
      · rfl
      · split <;> rfl
    · rfl
  | newListed span element extraDims listSpan items =>
    rw [ofExpr]
    refine reads_framed span ?_
    split
    · unfold newListedCpp
      split <;> rfl
    · rfl
  | index span array position =>
    rw [ofExpr, List.append_assoc, List.append_assoc]
    exact reads_framed span (reads_append _ (reads_ofExpr s array))
  | assign span left op right | binary span left op right =>
    rw [ofExpr]
    refine reads_framed span ?_
    unfold ofOperator
    split
    · exact reads_append _ (reads_ofExpr s left)
    · rw [List.append_assoc]
      exact reads_append _ (reads_ofExpr s left)
  | instanceOf span operand type =>
    rw [ofExpr]
    refine reads_framed span ?_
    split
    · rfl
    · rw [List.append_assoc]
      exact reads_append _ (reads_ofExpr s operand)
  | postfixed span operand op =>
    rw [ofExpr]
    exact reads_framed span (reads_append _ (reads_ofExpr s operand))
  | conditional span condition yes no =>
    rw [ofExpr, List.append_assoc, List.append_assoc, List.append_assoc]
    exact reads_framed span (reads_append _ (reads_ofExpr s condition))
  | _ => rfl

/-- A statement begins with a token, unless it declares variables. -/
theorem reads_ofStmt (s : Setting) (t : Stmt) (h : ∀ span v, t ≠ .locals span v) :
    (ofStmt s t).reads = true := by
  cases t with
  | block span body =>
    rw [ofStmt]
    refine reads_framed span ?_
    split <;> rfl
  | locals span v => exact absurd rfl (h span v)
  | expr span e =>
    rw [ofStmt]
    exact reads_framed span (reads_append _ (reads_ofExpr s e))
  | forEach span item items body =>
    rw [ofStmt, forEachHead]
    refine reads_framed span ?_
    split <;> rfl
  | leave span label? | next span label? => cases label? <;> rfl
  | _ => rfl

end Script

def Java.Node.isCode : Node → Bool
  | .stmt _ | .expr _ | .locals _ _ => true
  | _ => false

namespace Java.Origin

variable {s : Source} {n : Node} {r : Rule} {m : Grammar.Mode} {c d : Grammar.Cursor}
  {parts : List (Grammar.Derivation Rule)} {ps : List Piece}

theorem boundary (h : Origin s n r m c d parts ps) : s.Boundary n.span.start := by
  obtain ⟨w, hw⟩ := h.takes.reaches
  have hstart := (Source.inGap_skipSpace false h.on.boundary).boundary
  have hstop := (hw.on h.on).boundary
  rw [h.span]
  rcases Nat.le_total (s.skipSpace false c.offset) d.offset with hle | hle
  · simpa [trim, Nat.min_eq_left hle] using hstart
  · simpa [trim, Nat.min_eq_right hle] using hstop

end Java.Origin

theorem ofCode_framed (s : Setting) {n : Node} (h : n.isCode = true) :
    ∃ body, Script.ofNode s n = Script.framed n.span body := by
  cases n with
  | stmt t => cases t <;> exact ⟨_, by rw [Script.ofNode, Script.ofStmt]; rfl⟩
  | expr e => cases e <;> exact ⟨_, by rw [Script.ofNode, Script.ofExpr]; rfl⟩
  | locals span v => exact ⟨_, rfl⟩
  | _ => cases h

section

variable {name text : String} {u : Java.Parsed} (h : Java.parse name text = .ok u) {n : Node}
  (hn : n ∈ (Node.unit u.unit).descendants)
include h hn

/-- Where the code of a text that parses was written from, a character begins. -/
theorem boundary_of_code (hcode : n.isCode = true) {j : Job} (hj : j.source = u.source)
    {s : Setting} {p q : Pen} (hrun : j.run (Script.ofNode s n) p = .ok q) :
    j.source.Boundary p.position := by
  have horigin : ∀ {r}, n.rule? = some r → r.kind = .tree → j.source.Boundary p.position := by
    intro r hr hkind
    obtain ⟨m, c, d, parts, ps, ho⟩ := Java.origin_of_parse h hn hr hkind
    obtain ⟨script, hscript⟩ := ofNode_enter s n
    rw [hscript] at hrun
    obtain ⟨mid, henter, -⟩ := Job.run_cons_eq_ok.1 hrun
    rw [(Job.enter_eq_ok.1 henter).1, hj]
    exact ho.boundary
  cases n with
  | locals span v => exact horigin rfl rfl
  | expr e => exact Script.boundary_of_reads (Script.reads_ofExpr s e) hrun
  | stmt t =>
    cases t with
    | locals span v => exact horigin rfl rfl
    | _ => exact Script.boundary_of_reads (Script.reads_ofStmt s _ (by simp)) hrun
  | _ => cases hcode

/-- A statement or expression of a text that parses, with no part that C# spells in another way, is
written as it stands: no byte is lost, added or moved. -/
theorem text_of_plain (hcode : n.isCode = true) (s : Setting) (hcsharp : s.isCpp = false)
    (htabs : s.profile.expandTabs = false)
    (hplain : ∀ m ∈ n.descendants, m.isPlain s.profile u.source = true) {p q : Pen}
    (hdedent : p.dedent = 0)
    (hrun : (Job.mk u.source s.profile).run (Script.ofNode s n) p = .ok q) :
    ∃ cs, u.source.slice? n.span = some cs ∧ q.position = n.span.stop ∧
      q.sink.text = p.sink.text ++ String.ofList cs := by
  have hj : (Job.mk u.source s.profile).Exact s := ⟨htabs, hcsharp, rfl⟩
  have hb := boundary_of_code h hn hcode rfl hrun
  have hmem : n.All (· ∈ (Node.unit u.unit).descendants) :=
    Outline.of_mem_descendants (P := fun n => n.All (· ∈ (Node.unit u.unit).descendants))
      (fun _ _ hall => hall.child) _ (fun _ => id) n hn
  have hall : n.All (Node.Plain s.profile u.source) := by
    intro m hm
    refine ⟨hplain m hm, ?_⟩
    rintro e rfl he
    exact Java.spaced_of_parse h (hmem _ hm) he
  have hcopies : Copies (Job.mk u.source s.profile) (Script.ofNode s n) := by
    cases n with
    | stmt t => exact .ofStmt hj t hall
    | expr e => exact .ofExpr hj e hall
    | locals span v =>
      exact .framed span (.ofLocals hj v (List.isEmpty_iff.1 hall.self.1) fun c hc => hall.child hc)
    | _ => cases hcode
  obtain ⟨body, hbody⟩ := ofCode_framed s hcode
  rw [hbody] at hrun hcopies
  obtain ⟨cs, hcs⟩ := hcopies (p := { p with trailing := false }) hdedent hb
    (Job.framed_of_trailing false hrun)
  obtain ⟨mid, hstart, -, rfl, hstop⟩ := Job.framed_ok hrun
  have hend : mid.position = n.span.stop := hstop (hcs.trailing rfl)
  refine ⟨cs, ?_, hend, hcs.text⟩
  rw [show n.span = ⟨p.position, mid.position⟩ by rw [hstart, hend]]
  exact hcs.slice?

end

def plainText : String :=
  "class A\x7bvoid f()\x7bfor(int i=0; // up
\ti<n;i++)x[i] =new a.B /*b*/ ( i,\tnew int[ ]\x7b 1,2, \x7d );\x7d\x7d"

def bodySetting : Setting := { Setting.ofProfile .csharp with inBody := true }

theorem text_of_plain_sample : ∃ u n q, Java.parse "A.java" plainText = .ok u ∧
    n ∈ (Node.unit u.unit).descendants ∧ n.span = ⟨17, 91⟩ ∧
    (Job.mk u.source .csharp).run (Script.ofNode bodySetting n)
      { (Job.mk u.source .csharp).pen with position := n.span.start } = .ok q ∧
    ∃ cs, u.source.slice? n.span = some cs ∧ q.position = n.span.stop ∧
      q.sink.text = String.ofList cs := by
  have hcheck : (Java.parse "A.java" plainText).toOption.any (fun u =>
      (Node.unit u.unit).descendants.any fun n => n.isCode && (n.span == ⟨17, 91⟩) &&
        n.descendants.all (·.isPlain .csharp u.source) &&
        ((Job.mk u.source .csharp).run (Script.ofNode bodySetting n)
          { (Job.mk u.source .csharp).pen with position := n.span.start }).toOption.isSome)
      = true := by decide +kernel
  obtain ⟨u, hu⟩ : ∃ u, Java.parse "A.java" plainText = .ok u :=
    Java.exists_parsed (by decide +kernel)
  rw [hu] at hcheck
  obtain ⟨n, hn, hcheck⟩ := List.any_eq_true.1 hcheck
  simp only [Bool.and_eq_true, beq_iff_eq] at hcheck
  obtain ⟨⟨⟨hcode, hspan⟩, hplain⟩, hrun⟩ := hcheck
  cases hq : (Job.mk u.source .csharp).run (Script.ofNode bodySetting n)
      { (Job.mk u.source .csharp).pen with position := n.span.start } with
  | error e =>
    rw [hq] at hrun
    cases hrun
  | ok q =>
    obtain ⟨cs, hcs, hstop, htext⟩ := text_of_plain hu hn hcode bodySetting rfl rfl
      (List.all_eq_true.1 hplain) rfl hq
    exact ⟨u, n, q, hu, hn, hspan, hq, cs, hcs, hstop,
      by simpa [Job.pen, Text.Sink.empty] using htext⟩

end Transcribe
