/-
  Transcribe.Proofs.Ending.Script — scripts write the line breaks of their source.

  The words of a script are fixed, or names and literals of the tree, or spellings of the target's
  tables; where a script moves to is where a node begins or ends. If the tree is tidy and the tables
  hold no line breaks, every stroke of every script is even. For nodes this goes by how their
  scripts are woven; files add package, imports and namespace.
  - `own`: the strokes of a node's own.
  - `ofNode`: the script of a node.
  - `declarationScript`, `definitionsScript`: the scripts of the two files of a type.
-/

import Transcribe.Proofs.Ending.Stroke
import Transcribe.Proofs.ChildScripts
import Transcribe.Output.Basic

namespace Transcribe

open Text (Source isBreak)
open Target (Profile)
open Java (Node Tidy)

/-! ## Tables -/

structure Target.Profile.Lined (p : Profile) : Prop where
  primitive : ∀ k : Java.Primitive, isLine (p.primitive (Java.word k)) = true
  renamed : ∀ n t, p.renamed? n = some t → isLine t = true

/-! ## Parts of scripts -/

theorem Stroke.even_of_isFixed {e : String} {src : Source} {st : Stroke} (h : st.isFixed = true) :
    st.Even e src := by
  cases st with
  | swap a b =>
    obtain ⟨ha, hb⟩ := Bool.and_eq_true_iff.1 h
    exact ⟨getLast?_of_isLine ha, .inr (even_of_isLine hb)⟩
  | keepIf t => exact getLast?_of_isLine h
  | write t => exact even_of_isLine h
  | moveTo o | moveToLead o => cases h
  | _ => trivial

def Script.Even (e : String) (src : Source) (r : Script) : Prop := ∀ st ∈ r, st.Even e src

namespace Script.Even

variable {e : String} {src : Source} {p : Profile} {s : Setting} {r r' : Script}

theorem nil : Even e src [] := by simp [Even]

theorem fixed (h : r.all Stroke.isFixed = true) : Even e src r :=
  fun st hst => Stroke.even_of_isFixed (List.all_eq_true.1 h st hst)

theorem stroke {st : Stroke} (hst : st.Even e src) (h : Even e src r) : Even e src (st :: r) :=
  List.forall_mem_cons.2 ⟨hst, h⟩

theorem cons {st : Stroke} (hst : st.isFixed = true) (h : Even e src r) : Even e src (st :: r) :=
  stroke (Stroke.even_of_isFixed hst) h

theorem append (h : Even e src r) (h' : Even e src r') : Even e src (r ++ r') :=
  List.forall_mem_append.2 ⟨h, h'⟩

theorem flatMap {α : Type} {as : List α} {f : α → Script} (h : ∀ a ∈ as, Even e src (f a)) :
    Even e src (as.flatMap f) := by
  intro st hst
  obtain ⟨a, ha, hst⟩ := List.mem_flatMap.1 hst
  exact h a ha st hst

theorem ite {c : Prop} [Decidable c] (h : Even e src r) (h' : Even e src r') :
    Even e src (if c then r else r') := by
  split
  · exact h
  · exact h'

theorem write {t : String} (h : isLine t = true) : Even e src [.write t] :=
  fixed (by simp [Stroke.isFixed, h])

theorem isLine_names {n : Node} (h : Tidy src n) : ∀ x ∈ n.names, isLine x.text = true :=
  fun x hx => isLine_of_identifier (h.names x hx)

theorem isLine_joined {n : Java.Name} {sep : String} (hsep : isLine sep = true)
    (h : ∀ x ∈ n.segments, isLine x.text = true) : isLine (n.joined sep) = true :=
  isLine_intercalate hsep (by simpa using h)

theorem isLine_name {n : Java.SimpleName} (h : (Node.ofName n).All (Tidy src)) :
    isLine n.text = true :=
  isLine_names h.self n (List.mem_singleton.2 rfl)

theorem isLine_importLine {i : Java.Import} (h : ∀ x ∈ i.name.segments, isLine x.text = true) :
    ∀ t ∈ importLine s i, isLine t = true := by
  have hlast : isLine i.name.last = true := by
    unfold Java.Name.last
    cases hlast : (i.name.segments.map (·.text)).getLast? with
    | none => rfl
    | some t =>
      obtain ⟨x, hx, rfl⟩ := List.mem_map.1 (List.mem_of_getLast? hlast)
      exact h x hx
  have husing : ∀ t ∈ (if i.onDemand then some (i.name.joined ".") else i.name.qualifier? "."),
      isLine t = true := by
    intro t ht
    split at ht
    · cases ht
      exact isLine_joined rfl h
    · unfold Java.Name.qualifier? at ht
      split at ht <;> cases ht
      refine isLine_intercalate rfl fun t ht => ?_
      obtain ⟨x, hx, rfl⟩ := List.mem_map.1 ht
      exact h x (List.dropLast_subset _ hx)
  intro t ht
  unfold importLine at ht
  split at ht
  · split at ht <;> cases ht
    exact isLine_append (isLine_append rfl hlast) rfl
  · obtain ⟨n, hn, rfl⟩ := Option.map_eq_some_iff.1 ht
    exact isLine_append (isLine_append rfl (husing n hn)) rfl

/-! ## Nodes -/

theorem own {n : Node} {bs : List Char} {st : Stroke} (h : Own s n bs st) (hp : s.profile.Lined)
    (hqualifier : isLine s.qualifier = true) (hn : n.All (Tidy src)) : st.Even e src := by
  have hnames := isLine_names hn.self
  cases h with
  | fixed _ h => exact Stroke.even_of_isFixed (Bool.and_eq_true_iff.1 h).1
  | name hx ht =>
    have hx := hnames _ hx
    refine Stroke.even_of_isFixed (Bool.and_eq_true_iff.2 ⟨hx, ?_⟩)
    rcases ht with rfl | rfl
    · exact hx
    · rfl
  | literal span kind t => exact ⟨hn.self.literal _ _ _ rfl, .inl rfl⟩
  | primitive span k =>
    exact Stroke.even_of_isFixed (Bool.and_eq_true_iff.2 ⟨isLine_word rfl k, hp.primitive k⟩)
  | spelling t =>
    refine even_of_isLine ?_
    unfold className
    split
    · rename_i spelling hspelling
      exact hp.renamed _ _ hspelling
    · split <;> exact isLine_joined rfl hnames
  | qualifier m => exact even_of_isLine (isLine_append hqualifier rfl)
  | path k => exact even_of_isLine (isLine_joined rfl hnames)
  | line hline => exact even_of_isLine (isLine_importLine hnames _ hline)
  | jump _ hc hrule =>
    rcases List.mem_cons.1 hc with rfl | hc
    · exact (hn.self.edges hrule).2
    · exact ((hn.child hc).self.edges hrule).2
  | trail => trivial

theorem ofWeaves {n : Node} {ns : List Node} (h : Weaves s n r ns) (hp : s.profile.Lined)
    (hqualifier : isLine s.qualifier = true) (hn : n.All (Tidy src))
    (hc : ∀ c ∈ ns, ∀ k, s.Hands n c k → Even e src (ofNode k c)) : Even e src r := by
  induction h with
  | nil => exact nil
  | own hst => exact stroke (own hst hp hqualifier hn) nil
  | child hk => exact hc _ (List.mem_singleton.2 rfl) _ hk
  | append _ _ ih ih' =>
    obtain ⟨hns, hns'⟩ := List.forall_mem_append.1 hc
    exact (ih hns).append (ih' hns')
  | pair _ hst hst' _ ih =>
    exact stroke (own hst hp hqualifier hn)
      ((ih hc).append (stroke (own hst' hp hqualifier hn) nil))
  | stop _ _ _ _ ih => exact ih (List.forall_mem_append.1 hc).1

theorem ofNode {n : Node} (hunit : ∀ u, n ≠ .unit u) (hp : s.profile.Lined)
    (hqualifier : isLine s.qualifier = true) (hn : n.All (Tidy src)) :
    Even e src (ofNode s n) := by
  refine ofNode_induction (M := fun s n => s.profile.Lined → isLine s.qualifier = true →
    n.All (Tidy src) → Even e src (Script.ofNode s n))
    (fun s n body hbody hweaves hc hp hqualifier hn => ?_) s n hunit hp hqualifier hn
  rw [hbody]
  refine cons rfl (append ?_ (fixed rfl))
  exact ofWeaves hweaves hp hqualifier hn fun c hm k hk => hc c hm k hk (hk.profile ▸ hp)
    (hk.qualifier ▸ hqualifier) (hn.child (Node.mem_children_of_visited hm))

/-! ## Files -/

section Files

variable {u : Java.CompilationUnit} (hu : (Node.unit u).All (Tidy src))
include hu

theorem isLine_package {k : Java.Package} (hk : u.package? = some k) :
    ∀ x ∈ k.name.segments, isLine x.text = true :=
  isLine_names (n := .package k) (hu.child (by simp [Node.children, hk])).self

theorem openNamespace {k : Java.Package} (hk : u.package? = some k) :
    Even e src (openNamespace k) := by
  have hname : isLine (k.name.joined "::") = true := isLine_joined rfl (isLine_package hu hk)
  exact append (write (isLine_append (isLine_append rfl hname) rfl)) (fixed rfl)

theorem ofPrologue (hp : s.profile.Lined) (hqualifier : isLine s.qualifier = true) :
    Even e src (ofPrologue s u) := by
  have hpackage : Even e src (u.package?.toList.flatMap fun k =>
      .copySpace :: Script.ofPackage s k ++ if s.isCpp then [Stroke.skipLine, .skipBlankLines] else []) :=
    flatMap fun k hk => (cons rfl (ofNode (n := .package k) nofun hp hqualifier (hu.child
      (by simp [Node.children, Option.mem_toList.1 hk])))).append (ite (fixed rfl) nil)
  have himports : Even e src (u.imports.flatMap fun i =>
      .copySpace :: Script.ofImport s i ++ if isDropped s i then [Stroke.skipLine] else []) :=
    flatMap fun i hi => (cons rfl (ofNode (n := .importing i) nofun hp hqualifier (hu.child
      (by simp [Node.children, hi])))).append (ite (fixed rfl) nil)
  refine ((hpackage.append himports).append (ite (fixed rfl) nil)).append ?_
  split
  · rename_i k hk
    exact ite (cons rfl (openNamespace hu hk)) (ite (fixed rfl) nil)
  · exact ite (fixed rfl) nil

omit hu in
theorem ofEpilogue : Even e src (ofEpilogue s u) := cons rfl (ite (fixed rfl) nil)

theorem declarationScript (hp : p.Lined) {d : Java.TypeDecl} (hd : d ∈ u.types) (index : Nat) :
    Even e src (Output.declarationScript p u index d) := by
  have hdecl : (Node.decl d).All (Tidy src) := hu.child (by simp [Node.children, hd])
  have hlead : Even e src (Output.leadScript u index d) :=
    ite (stroke Source.whole_zero nil) (stroke (hdecl.self.edges nofun).1 nil)
  have htype : Even e src (ofDecl (.ofProfile p) d) :=
    ofNode (n := .decl d) nofun (s := .ofProfile p) hp rfl hdecl
  exact (((ofPrologue hu (s := .ofProfile p) hp rfl).append hlead).append
    (cons rfl htype)).append (cons rfl ofEpilogue)

end Files

mutual

/-- The methods that get a definition, and the names of the classes around them. -/
theorem definitionsOf (owner : Java.TypeHead) {qualifier : String}
    (hqualifier : isLine qualifier = true) (m : Java.Member)
    (h : (Node.ofMember m).All (Tidy src)) : ∀ d ∈ Output.definitionsOf owner qualifier m,
      isLine d.qualifier = true ∧ (Node.method d.method).All (Tidy src) := by
  cases m with
  | field f => simp [Output.definitionsOf]
  | method m =>
    rw [Output.definitionsOf]
    split
    · exact fun d hd => List.mem_singleton.1 hd ▸ ⟨hqualifier, h⟩
    · nofun
  | type k body =>
    rw [Output.definitionsOf]
    have hname : isLine k.name.text = true :=
      isLine_name (h.child (by simp [Node.ofMember, Node.children, Node.childrenOfHead]))
    exact definitionsIn k (isLine_append (isLine_append hqualifier rfl) hname) body fun m hm =>
      h.child (List.mem_append_right _ (List.mem_map.2 ⟨m, hm, rfl⟩))

theorem definitionsIn (owner : Java.TypeHead) {qualifier : String}
    (hqualifier : isLine qualifier = true) (ms : List Java.Member)
    (h : ∀ m ∈ ms, (Node.ofMember m).All (Tidy src)) : ∀ d ∈ Output.definitionsIn owner qualifier ms,
      isLine d.qualifier = true ∧ (Node.method d.method).All (Tidy src) := by
  cases ms with
  | nil => simp [Output.definitionsIn]
  | cons m ms =>
    obtain ⟨hm, hms⟩ := List.forall_mem_cons.1 h
    rw [Output.definitionsIn]
    exact List.forall_mem_append.2
      ⟨definitionsOf owner hqualifier m hm, definitionsIn owner hqualifier ms hms⟩

end

theorem definitionsScript (hp : p.Lined) {u : Java.CompilationUnit}
    (hu : (Node.unit u).All (Tidy src)) {d : Java.TypeDecl} (hd : d ∈ u.types) :
    Even e src (Output.definitionsScript p u d) := by
  have hdecl : (Node.decl d).All (Tidy src) := hu.child (by simp [Node.children, hd])
  have hname : isLine d.head.name.text = true :=
    isLine_name (hdecl.child (by simp [Node.children, Node.childrenOfHead]))
  have hinclude : isLine ("#include \x22" ++ d.head.name.text ++ "." ++ p.language.extension
      ++ "\x22") = true := by
    refine isLine_append (isLine_append (isLine_append (isLine_append rfl hname) rfl) ?_) rfl
    cases p.language <;> rfl
  have hpackage : Even e src (u.package?.toList.flatMap fun k =>
      .newline :: Script.openNamespace k) :=
    flatMap fun k hk => cons rfl (openNamespace hu (Option.mem_toList.1 hk))
  have hdefinitions : Even e src ((Output.definitions d).flatMap (Output.definitionScript p)) := by
    refine flatMap fun x hx => ?_
    obtain ⟨hqualifier, hmethod⟩ := definitionsIn d.head hname d.body (fun m hm =>
      hdecl.child (List.mem_append_right _ (List.mem_map.2 ⟨m, hm, rfl⟩))) x hx
    have hwritten : Even e src (Script.ofMethod { Setting.ofProfile p with
        part := .source, qualifier := x.qualifier, enclosing? := some x.owner } x.method) :=
      ofNode (n := .method x.method) nofun hp hqualifier hmethod
    have hlead : Even e src [.newline, .moveToLead x.method.span.start, .skipBlankLines,
        .dedentBy x.method.span.start, .copySpace] :=
      cons rfl (stroke (hmethod.self.edges nofun).1 (fixed rfl))
    exact (hlead.append hwritten).append (fixed rfl)
  exact ((cons (by simp [Stroke.isFixed, hinclude]) (cons rfl hpackage)).append
    hdefinitions).append (ite (fixed rfl) nil)

end Script.Even

end Transcribe
