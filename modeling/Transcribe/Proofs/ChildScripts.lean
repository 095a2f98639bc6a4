/-
  Transcribe.Proofs.ChildScripts — the script of a node is woven from those of its children.

  A node's script has strokes of its own and, between them, the scripts of the children that are
  written, each once and in order. This is gone through here for every kind of node, and what a
  script does on the whole follows from what the strokes of a node's own do.

  Which children are written depends on where a method stands: the types it throws never are, and
  its body is not where bodies stand apart (`pruned`, `visited`). The strokes are sorted into
  classes: those of types (`isPlain`), of types and expressions (`isLevel`), of methods (`isLocal`),
  those that can never be made (`isStop`), and those whose words are fixed (`isFixed`). A node
  `admits` the strokes of its class and hands its children on in settings of their own
  (`Setting.Hands`).
  - `Own`: the strokes of a node's own, by where their words come from.
  - `Weaves`: a script of such strokes and of children, with its brackets in pairs.
  - `woven_ofNode`: the script of every node but a file is woven from its children.
-/

import Transcribe.Proofs.Ending.Tree
import Transcribe.Proofs.Keep.Decl
import Transcribe.Script.Node

namespace Transcribe

open Text (Span isBare closer?)
open Target (Profile)
open Java (Node Ty SimpleName SimpleType TypeParameter Expr Fragment Variables Parameter ForInit Stmt
  Modifier Field Method Member TypeHead TypeDecl Package Import Access)

variable {n : Node} {α : Type} {st : Stroke} {s : Setting}

/-! ## The children that are written -/

namespace Java.Node

def isModifier : Node → Bool
  | .modifier _ => true
  | _ => false

/-- A method without the types it throws and, unless `bodies`, without its body. -/
def pruned (bodies : Bool) : Node → Node
  | .method m => .method { m with thrown := [], body? := if bodies then m.body? else none }
  | n => n

def visited (bodies : Bool) (n : Node) : List Node :=
  (n.pruned bodies).children.filter (!·.isModifier)

theorem mem_children_of_visited {bodies : Bool} {c : Node} (h : c ∈ n.visited bodies) :
    c ∈ n.children := by
  have hc := (List.mem_filter.1 h).1
  cases n with
  | method m =>
    simp only [pruned, children, List.map_nil, List.append_nil, List.mem_append] at hc ⊢
    rcases hc with hc | hc
    · exact .inl (.inl hc)
    · cases bodies with
      | true => exact .inr hc
      | false => cases hc
  | _ => exact hc

section Visited

variable {b : Bool}

theorem filter_map_node {f : α → Node} (hf : ∀ a, (f a).isModifier = false) (as : List α) :
    (as.map f).filter (!·.isModifier) = as.map f :=
  List.filter_eq_self.2 (by simp [hf])

theorem filter_modifiers (ms : List Modifier) :
    (ms.map Node.modifier).filter (!·.isModifier) = [] :=
  List.filter_eq_nil_iff.2 (by simp [isModifier])

theorem filter_name (n : SimpleName) (ns : List Node) :
    (ofName n :: ns).filter (!·.isModifier) = ofName n :: ns.filter (!·.isModifier) := rfl

theorem filter_ofVariables (v : Variables) :
    (ofVariables v).filter (!·.isModifier) = .type v.type :: v.fragments.map .fragment := by
  rw [ofVariables, List.filter_append, filter_modifiers, List.nil_append,
    List.filter_cons_of_pos rfl,
    filter_map_node fun _ => rfl]

theorem visited_type (t : Ty) : (Node.type t).visited b = childrenOfType t := by
  refine List.filter_eq_self.2 fun c hc => ?_
  cases t <;> simp [pruned, children, childrenOfType] at hc
  all_goals grind [isModifier]

theorem visited_expr (e : Expr) : (Node.expr e).visited b = childrenOfExpr e := by
  refine List.filter_eq_self.2 fun c hc => ?_
  cases e <;> simp [pruned, children, childrenOfExpr, ofName] at hc
  all_goals grind [isModifier]

theorem visited_stmt {t : Stmt} (ht : ∀ span v, t ≠ .locals span v) :
    (Node.stmt t).visited b = childrenOfStmt t := by
  refine List.filter_eq_self.2 fun c hc => ?_
  cases t with
  | locals span v => exact absurd rfl (ht span v)
  | empty span => cases hc
  | forLoop span init condition? updates body =>
    cases init <;> simp [pruned, children, childrenOfStmt, ofForInit] at hc <;> grind [isModifier]
  | _ =>
    simp [pruned, children, childrenOfStmt, ofName] at hc
    grind [isModifier]

theorem visited_parameter (q : Parameter) :
    (Node.parameter q).visited b = [.type q.type, ofName q.name] := by
  simp only [visited, pruned, children, List.filter_append, filter_modifiers]
  rfl

theorem visited_fragment (f : Fragment) :
    (Node.fragment f).visited b = ofName f.name :: f.init?.toList.map .expr :=
  filter_map_node (f := Node.expr) (fun _ => rfl) (.name f.name :: f.init?.toList)

theorem visited_method (m : Method) : (Node.method m).visited b
    = m.returnType?.toList.map .type ++ ofName m.name :: m.parameters.map .parameter
      ++ if b then m.body?.toList.map ofBlock else [] := by
  have hbody : ∀ k? : Option Block, (k?.toList.map ofBlock).filter (!·.isModifier)
      = k?.toList.map ofBlock := fun k? => filter_map_node (fun _ => rfl) _
  simp only [visited, pruned, children, List.filter_append, filter_modifiers,
    filter_map_node (f := Node.type) fun _ => rfl, filter_name, hbody, List.nil_append,
    filter_map_node (f := Node.parameter) fun _ => rfl, List.map_nil, List.append_nil]
  cases b <;> rfl

theorem visited_decl (d : TypeDecl) : (Node.decl d).visited b
    = ofName d.head.name :: d.head.typeParameters.map .typeParameter
      ++ (d.head.extended ++ d.head.implemented).map .type ++ d.body.map ofMember := by
  simp only [visited, pruned, children, childrenOfHead, List.filter_append, filter_modifiers,
    List.nil_append, filter_name, List.map_append, filter_map_node (f := Node.type) fun _ => rfl,
    filter_map_node (f := ofMember) fun m => by cases m <;> rfl, List.append_assoc,
    filter_map_node (f := Node.typeParameter) fun _ => rfl]

end Visited

end Java.Node

/-! ## Strokes -/

namespace Stroke

def isStop : Stroke → Bool
  | .reject _ | .breach _ => true
  | _ => false

def isFixed : Stroke → Bool
  | .swap a b => isLine a && isLine b
  | .keepIf t | .write t => isLine t
  | .moveTo _ | .moveToLead _ => false
  | _ => true

def isPlain : Stroke → Bool
  | .enter _ | .leave _ | .swap _ _ | .write _ | .copySpace | .skipSpace => true
  | _ => false

def isLevel : Stroke → Bool
  | .enter _ | .leave _ | .swap _ _ | .keepIf _ | .write _ | .copySpace | .copyDelimiter
  | .skipSpace | .reject _ => true
  | _ => false

def isLocal : Stroke → Bool
  | .moveTo _ | .copyComments | .copyCommentsOrSkip | .breach _ => true
  | st => st.isLevel

def isCalm (P : Stroke → Bool) (st : Stroke) : Bool :=
  P st && st.isFixed && st.isSilent && st.brackets.isEmpty

end Stroke

def Java.Node.admits : Node → Stroke → Bool
  | .type _ => Stroke.isPlain
  | .expr _ | .typeParameter _ | .fragment _ | .package _ => Stroke.isLevel
  | .unit _ | .decl _ => fun _ => true
  | _ => Stroke.isLocal

theorem Java.Node.admits_of_isPlain (n : Node) (h : st.isPlain = true) :
    n.admits st = true := by
  cases st with
  | enter | leave | swap | write | copySpace | skipSpace => cases n <;> rfl
  | _ => cases h

theorem Stroke.isCalm_write {t : String} (h : isLine t = true) (hbare : isBare t.toList = true) :
    (Stroke.write t).isCalm isPlain = true := by
  simp [isCalm, isPlain, isFixed, isSilent, brackets, h, Text.Scan.brackets_of_isBare hbare]

/-- The strokes of a node's own, with the brackets they write. Their words are fixed, or those of
the node, of the target's tables and of the classes around a method; they jump to where a node
ends. -/
inductive Own (s : Setting) : Node → List Char → Stroke → Prop
  | fixed {n : Node} {st : Stroke} (hn : n.admits st = true)
      (h : (st.isFixed && st.isSilent) = true) : Own s n st.brackets st
  | name {n : Node} {x : SimpleName} {t : String} (hx : x ∈ n.names) (ht : t = x.text ∨ t = "") :
      Own s n [] (.swap x.text t)
  | literal (span : Span) (kind : Java.LiteralKind) (t : String) :
      Own s (.expr (.literal span kind t)) [] (.keep t)
  | primitive (span : Span) (k : Java.Primitive) : Own s (.type (.primitive span k)) []
      (.swap (Java.word k) (s.profile.primitive (Java.word k)))
  | spelling (t : SimpleType) :
      Own s (.type (.simple t)) [] (.write (Script.className s.profile t))
  | qualifier (m : Method) : Own s (.method m) [] (.write (s.qualifier ++ "::"))
  | path (k : Package) : Own s (.package k) [] (.write (k.name.joined "."))
  | line {i : Import} {t : String} (h : t ∈ Script.importLine s i) :
      Own s (.importing i) [] (.write t)
  | jump {n c : Node} (hn : ∀ o, n.admits (.moveTo o) = true) (hc : c ∈ n :: n.children)
      (hrule : c.rule? ≠ none) : Own s n [] (.moveTo c.span.stop)
  | trail {d : TypeDecl} (h : (s.isCpp && Script.isOutermost s d.head) = true) :
      Own s (.decl d) [] .trail

theorem Own.plain {a : Stroke} {bs : List Char}
    (h : (a.isPlain && (a.isFixed && a.isSilent)) = true) (hbs : a.brackets = bs) :
    Own s n bs a := by
  obtain ⟨hplain, h⟩ := Bool.and_eq_true_iff.1 h
  exact hbs ▸ .fixed (n.admits_of_isPlain hplain) h

structure Setting.Hands (s : Setting) (n c : Node) (k : Setting) : Prop where
  profile : k.profile = s.profile
  part : k.part = s.part
  qualifier : k.qualifier = s.qualifier
  enclosing : ∀ d, c = .decl d → ∃ e, n = .decl e ∧ k.enclosing? = some e.head

/-- The script has strokes of the node's own and the scripts of `ns` in order, or stops before the
last of them. -/
inductive Weaves (s : Setting) (n : Node) : Script → List Node → Prop
  | nil : Weaves s n [] []
  | own {st : Stroke} (h : Own s n [] st) : Weaves s n [st] []
  | child {c : Node} {k : Setting} (h : s.Hands n c k) : Weaves s n (Script.ofNode k c) [c]
  | append {r r' : Script} {ns ns' : List Node} (h : Weaves s n r ns) (h' : Weaves s n r' ns') :
      Weaves s n (r ++ r') (ns ++ ns')
  | pair {o c : Char} {st st' : Stroke} {r : Script} {ns : List Node} (hc : closer? o = some c)
      (hst : Own s n [o] st) (hst' : Own s n [c] st') (h : Weaves s n r ns) :
      Weaves s n (st :: r ++ [st']) ns
  | stop {a : Stroke} {r : Script} {ns : List Node} (h : Weaves s n r ns) (hm : a ∈ r)
      (ha : a.isStop = true) (ns' : List Node) : Weaves s n r (ns ++ ns')

namespace Weaves

variable {s : Setting} {n : Node} {r r' : Script} {ns ns' : List Node}

theorem calm (h : r.all (Stroke.isCalm n.admits) = true) : Weaves s n r [] := by
  induction r with
  | nil => exact nil
  | cons st r ih =>
    obtain ⟨hst, hr⟩ := Bool.and_eq_true_iff.1 h
    simp only [Stroke.isCalm, Bool.and_eq_true, List.isEmpty_iff] at hst
    obtain ⟨⟨⟨hn, hfixed⟩, hsilent⟩, hbrackets⟩ := hst
    have hown : Own s n st.brackets st := .fixed hn (by simp [hfixed, hsilent])
    rw [hbrackets] at hown
    exact (own hown).append (ih hr)

theorem plain (h : r.all (Stroke.isCalm Stroke.isPlain) = true) : Weaves s n r [] := by
  refine calm (List.all_eq_true.2 fun st hst => ?_)
  have hcalm := List.all_eq_true.1 h st hst
  simp only [Stroke.isCalm, Bool.and_eq_true] at hcalm ⊢
  obtain ⟨⟨⟨hplain, hfixed⟩, hsilent⟩, hbrackets⟩ := hcalm
  exact ⟨⟨⟨n.admits_of_isPlain hplain, hfixed⟩, hsilent⟩, hbrackets⟩

theorem cons {a : Stroke} (h : Weaves s n r ns)
    (ha : a.isCalm Stroke.isPlain = true) : Weaves s n (a :: r) ns :=
  (plain (r := [a]) (by simp [ha])).append h

theorem space (h : Weaves s n r ns) : Weaves s n (.copySpace :: r) ns := h.cons rfl

theorem concat (h : Weaves s n r ns) (h' : Weaves s n r' []) : Weaves s n (r ++ r') ns := by
  simpa using h.append h'

theorem token {t : String} (h : (Stroke.keep t).isCalm Stroke.isPlain = true) :
    Weaves s n (Script.token t) [] :=
  plain (by simpa [Script.token] using ⟨rfl, h⟩)

theorem ite {c : Prop} [Decidable c] (h : Weaves s n r ns) (h' : Weaves s n r' ns) :
    Weaves s n (if c then r else r') ns := by
  split
  · exact h
  · exact h'

theorem flatMap {as : List α} {f : α → Script} {g : α → List Node}
    (h : ∀ x ∈ as, Weaves s n (f x) (g x)) : Weaves s n (as.flatMap f) (as.flatMap g) := by
  induction as with
  | nil => exact nil
  | cons x as ih =>
    exact (h x List.mem_cons_self).append (ih fun y hy => h y (List.mem_cons_of_mem _ hy))

theorem flatMap_own {as : List α} {f : α → Script} (h : ∀ x ∈ as, Weaves s n (f x) []) :
    Weaves s n (as.flatMap f) [] := by
  simpa using flatMap h

theorem map {as : List α} {f : α → Script} {g : α → Node} (h : ∀ x ∈ as, Weaves s n (f x) [g x]) :
    Weaves s n (as.flatMap f) (as.map g) := by
  simpa [List.map_eq_flatMap] using flatMap h

theorem commaList {l : List α} {f : α → Script} {g : α → Node} (h : ∀ x ∈ l, Weaves s n (f x) [g x]) :
    Weaves s n (Script.commaList (l.map f)) (l.map g) := by
  cases l with
  | nil => exact nil
  | cons x l =>
    obtain ⟨hx, hl⟩ := List.forall_mem_cons.1 h
    have hrest := map fun y hy =>
      (token rfl : Weaves s n (Script.token ",") []).append (hl y hy).space
    simpa [Script.commaList, List.flatMap_map] using hx.space.append hrest

theorem intercalate {sep : Script} {rs : List Script} (hsep : Weaves s n sep [])
    (h : ∀ r ∈ rs, Weaves s n r []) : Weaves s n (sep.intercalate rs) [] := by
  induction rs with
  | nil => exact nil
  | cons r rs ih =>
    obtain ⟨hr, hrs⟩ := List.forall_mem_cons.1 h
    cases rs with
    | nil => simpa [List.intercalate] using hr
    | cons r' rs =>
      rw [List.intercalate_cons_cons]
      exact (hr.append hsep).append (ih hrs)

section Brackets

variable {o c : Char} {t t' : String} (hc : closer? o = some c) (ht : Own s n [o] (.keep t))
  (ht' : Own s n [c] (.keep t')) (h : Weaves s n r ns)
include hc ht ht' h

theorem between : Weaves s n (.keep t :: r ++ Script.token t') ns := by
  simpa [Script.token] using pair hc ht ht' (h.concat (plain (r := [.copySpace]) rfl))

theorem tokens : Weaves s n (Script.token t ++ r ++ Script.token t') ns :=
  (between hc ht ht' h).space

end Brackets

theorem parens (h : Weaves s n r ns) :
    Weaves s n (Script.token "(" ++ r ++ Script.token ")") ns :=
  tokens (o := '(') rfl (.plain rfl rfl) (.plain rfl rfl) h

/-- What the target rejects is behind all that was written. -/
theorem reject (what : Rejection) (h : Weaves s n r ns) (hm : .reject what ∈ r)
    (ns' : List Node) : Weaves s n r (ns ++ ns') := h.stop hm rfl ns'

/-! ## Children -/

theorem type (t : Ty) : Weaves s n (Script.ofType s.profile t) [.type t] :=
  child (c := .type t) ⟨rfl, rfl, rfl, nofun⟩

theorem expr (e : Expr) : Weaves s n (Script.ofExpr s e) [.expr e] :=
  child (c := .expr e) ⟨rfl, rfl, rfl, nofun⟩

theorem name (x : SimpleName) : Weaves s n (Script.ofName x) [Node.ofName x] := expr (.name x)

theorem stmt (t : Stmt) : Weaves s n (Script.ofStmt s t) [.stmt t] :=
  child (c := .stmt t) ⟨rfl, rfl, rfl, nofun⟩

theorem parameter (q : Parameter) : Weaves s n (Script.ofParameter s q) [.parameter q] :=
  child (c := .parameter q) ⟨rfl, rfl, rfl, nofun⟩

/-! ## Parts of scripts -/

theorem marker (p : Profile) : Weaves s n [.write p.marker] [] := by
  unfold Target.Profile.marker
  cases p.pointerStyle <;> exact plain rfl

theorem marked {p : Profile} {t : Ty} (h : Weaves s n r ns) : Weaves s n (Script.marked p t r) ns :=
  ite (h.concat (marker p)) h

theorem dropName {name : Java.Name} (h : ∀ x ∈ name.segments, x ∈ n.names) :
    Weaves s n (Script.dropName name) [] := by
  refine intercalate (plain rfl) fun r hr => ?_
  obtain ⟨x, hx, rfl⟩ := List.mem_map.1 hr
  exact own (.name (h x hx) (.inr rfl))

theorem keepBrackets (k : Nat) : Weaves s n (Script.keepBrackets k) [] := by
  induction k with
  | zero => exact nil
  | succ k ih =>
    have hpair : Weaves s n (Script.token "[" ++ [] ++ Script.token "]") [] :=
      tokens (o := '[') rfl (.plain rfl rfl) (.plain rfl rfl) nil
    simpa [Script.keepBrackets, List.replicate_succ] using hpair.append ih

theorem closeArrays (p : Profile) (k : Nat) : Weaves s n (Script.closeArrays p k) [] := by
  refine intercalate (marker p) fun r hr => ?_
  obtain rfl := List.eq_of_mem_replicate hr
  exact plain rfl

theorem replaceModifiers {ms : List Modifier} {words : List String}
    (hn : ∀ st : Stroke, st.isLocal = true → n.admits st = true)
    (hms : ∀ m ∈ ms, .modifier m ∈ n.children) (hwords : ∀ w ∈ words, Java.isName w = true) :
    Weaves s n (Script.replaceModifiers ms words) [] := by
  have hchars : ∀ w ∈ words, ∀ c ∈ w.toList, Java.isIdentChar c = true :=
    fun w hw => List.all_eq_true.1 (hwords w hw)
  have hline : isLine (" ".intercalate words) = true :=
    isLine_intercalate rfl fun w hw => isLine_of_identifier (hchars w hw)
  have hbare : isBare (" ".intercalate words).toList = true :=
    isBare_intercalate rfl fun w hw => Java.isBare_of_isIdentChar (hchars w hw)
  have hjump : ∀ m ∈ ms, Weaves s n [.moveTo m.span.stop] [] := fun m hm =>
    own (.jump (fun _ => hn _ rfl) (List.mem_cons_of_mem _ (hms m hm)) (by cases m <;> nofun))
  have hlocal : ∀ {r : Script}, r.all (Stroke.isCalm Stroke.isLocal) = true → Weaves s n r [] := by
    intro r hr
    refine calm (List.all_eq_true.2 fun st hst => ?_)
    have hcalm := List.all_eq_true.1 hr st hst
    simp only [Stroke.isCalm, Bool.and_eq_true] at hcalm ⊢
    exact ⟨⟨⟨hn st hcalm.1.1.1, hcalm.1.1.2⟩, hcalm.1.2⟩, hcalm.2⟩
  unfold Script.replaceModifiers
  dsimp only
  split
  · refine ite nil (plain ?_)
    have hspaced : isBare (" ".intercalate words ++ " ").toList = true := by
      rw [String.toList_append]
      exact Text.isBare_append hbare rfl
    simpa using Stroke.isCalm_write (isLine_append hline rfl) hspaced
  · rename_i last hlast
    refine (flatMap_own fun m hm => ?_).append ((hjump last (List.mem_of_getLast? hlast)).append ?_)
    · exact (hjump m (List.dropLast_subset ms hm)).append (hlocal rfl)
    · exact ite (hlocal rfl) ((hlocal rfl).cons (Stroke.isCalm_write hline hbare))

end Weaves

def Woven (s : Setting) (n : Node) (r : Script) (ns : List Node) : Prop :=
  ∃ body, r = Script.framed n.span body ∧ Weaves s n body ns

namespace Weaves

variable {s : Setting} {n : Node} {r r' : Script} {ns ns' : List Node}

theorem frame (h : Weaves s n r ns) : Woven s n (Script.framed n.span r) ns := ⟨r, rfl, h⟩

/-! ## Types and expressions -/

theorem ofType (t : Ty) :
    Woven s (.type t) (Script.ofType s.profile t) (Node.childrenOfType t) := by
  cases t with
  | primitive span k => exact frame (own (.primitive span k))
  | simple t =>
    exact frame ((dropName fun _ h => h).append (own (.spelling t)))
  | array span element dims =>
    have hopen : Weaves s (.type (.array span element dims))
        (List.replicate dims (.write "Array<")) [] :=
      plain (List.all_eq_true.2 fun st hst => by rw [List.eq_of_mem_replicate hst]; rfl)
    rw [Script.ofType]
    exact frame (ite ((hopen.append (marked (type element))).concat (closeArrays s.profile dims))
        ((type element).concat (keepBrackets dims)))
  | generic span base arguments =>
    rw [Script.ofType, Tracks.ofArguments_eq]
    exact frame ((((type (.simple base)).concat (token rfl)).append
        (commaList fun t _ => marked (type t))).concat (token rfl))

section Expressions

variable {e : Expr}

theorem exprList (es : List Expr) :
    Weaves s n (Script.commaList (Script.ofExprs s es)) (es.map .expr) := by
  rw [Tracks.ofExprs_eq]
  exact commaList fun e _ => expr e

theorem ofArgumentList (es : List Expr) :
    Weaves s n (Script.ofArgumentList (Script.ofExprs s es)) (es.map .expr) := parens (exprList es)

theorem ofItems (es : List Expr) :
    Weaves s (.expr e) (Script.ofItems (Script.ofExprs s es)) (es.map .expr) := by
  have hitems : Weaves s (.expr e)
      (Script.commaList (Script.ofExprs s es) ++ [Stroke.copySpace, .keepIf ","]) (es.map .expr) :=
    (exprList es).concat (calm rfl)
  exact between (o := '\x7b') rfl (.plain rfl rfl) (.plain rfl rfl) hitems

theorem selector (receiver : Expr) : Weaves s n (Script.selector s receiver) [] := by
  unfold Script.selector Script.separator
  split
  · split <;> exact plain rfl
  · exact plain rfl

theorem newWord : Weaves s (.expr e) Script.newWord [] := calm rfl

/-- What is opened as an array in C++. -/
theorem newArray {st : Stroke} (t : Ty) (h : Weaves s (.expr e) r ns)
    (hst : Own s (.expr e) [')'] st) :
    Weaves s (.expr e) (Script.openArray s.profile t ++ r ++ [st]) (.type t :: ns) := by
  have hopen : Weaves s (.expr e) (Script.newWord ++ .write "Array<"
      :: Script.ofMarkedType s.profile t ++ [Stroke.write ">", .skipSpace]) [.type t] :=
    (newWord.append ((marked (type t)).cons rfl)).concat (plain rfl)
  have hinner : Weaves s (.expr e) (.swap "[" "(" :: r ++ [st]) ns :=
    pair (o := '(') rfl (.plain rfl rfl) hst h
  simpa [Script.openArray] using hopen.append hinner

theorem newSized (t : Ty) (es : List Expr) (k : Nat) :
    Weaves s (.expr e) (if s.isCpp then Script.newSizedCpp s.profile t (Script.ofExprs s es) k
      else Script.newSizedCsharp s.profile t (Script.ofExprs s es) k) (.type t :: es.map .expr) := by
  rw [Tracks.ofExprs_eq]
  refine ite ?_ ?_
  · unfold Script.newSizedCpp
    rw [List.length_map]
    split
    · exact reject _ (calm rfl) (List.mem_singleton.2 rfl) _
    · rename_i hk
      cases es with
      | nil =>
        have hempty := newArray (e := e) t (plain (s := s) (r := [.skipSpace, .drop "]"]) rfl)
          (.plain (a := .write ")") rfl rfl)
        simpa using hempty
      | cons x es =>
        obtain rfl : es = [] := List.eq_nil_of_length_eq_zero (by simp at hk; omega)
        have hone := newArray (e := e) t
          ((expr (s := s) x).space.concat (plain (r := [.copySpace]) rfl))
          (.plain (a := .swap "]" ")") rfl rfl)
        simpa using hone
  · have hlengths : Weaves s (.expr e) ((es.map (Script.ofExpr s)).flatMap fun length =>
        Script.token "[" ++ .copySpace :: length ++ Script.token "]") (es.map .expr) := by
      rw [List.flatMap_map]
      exact map fun x _ => tokens (o := '[') rfl (.plain rfl rfl) (.plain rfl rfl) (expr x).space
    exact ((newWord.append (type t)).append hlengths).concat (keepBrackets k)

theorem newListed (t : Ty) (k : Nat) (span : Span) (items : List Expr) :
    Weaves s (.expr e)
      (if s.isCpp then Script.newListedCpp s.profile t k (Script.ofExpr s (.arrayInit span items))
        else Script.newListedCsharp s.profile t k (Script.ofExpr s (.arrayInit span items)))
      [.type t, .expr (.arrayInit span items)] := by
  have hitems : Weaves s (.expr e) (Script.ofExpr s (.arrayInit span items))
      [.expr (.arrayInit span items)] := expr _
  refine ite ?_ ?_
  · unfold Script.newListedCpp
    split
    · exact reject _ (calm rfl) (List.mem_singleton.2 rfl) _
    · have harray := newArray t
        ((plain (r := [.skipSpace, .drop "]", .skipSpace]) rfl).append hitems)
        (.plain (a := .write ")") rfl rfl)
      simpa using harray
  · exact ((newWord.append (type t)).concat (keepBrackets k)).append hitems.space

theorem ofOperator {op : String} (hop : (Stroke.keep op).isCalm Stroke.isPlain = true)
    (rejected? : Option Rejection) (left right : Expr) :
    Weaves s (.expr e)
      (Script.ofOperator (Script.ofExpr s left) op rejected? (Script.ofExpr s right))
      [.expr left, .expr right] := by
  cases rejected? with
  | some what =>
    exact reject what ((expr left).concat (calm rfl)) (by simp) [_]
  | none => exact ((expr left).concat (plain (by simpa using ⟨rfl, hop, rfl⟩))).append (expr right)

end Expressions

theorem ofExpr (e : Expr) :
    Woven s (.expr e) (Script.ofExpr s e) (Node.childrenOfExpr e) := by
  cases e with
  | literal span kind t =>
    refine frame ?_
    unfold Script.literalWord
    split
    · exact plain rfl
    · exact own (.literal span kind t)
  | name x =>
    exact frame (own (.name (List.mem_singleton.2 rfl) (.inl rfl)))
  | self span => exact frame (plain rfl)
  | field span target x =>
    exact frame (((expr target).concat (selector target)).append (name x))
  | call span x arguments =>
    exact frame ((name x).append (ofArgumentList arguments))
  | invoke span target x arguments =>
    exact frame ((((expr target).concat (selector target)).append (name x)).append
      (ofArgumentList arguments))
  | create span t arguments =>
    exact frame ((newWord.append (type t)).append (ofArgumentList arguments))
  | newSized span t lengths k =>
    exact frame (newSized t lengths k)
  | newListed span t k listSpan items =>
    exact frame (newListed t k listSpan items)
  | arrayInit span items => exact frame (ofItems items)
  | index span array position =>
    have hinner : Weaves s (.expr (.index span array position)) (Script.token "["
        ++ .copySpace :: Script.ofExpr s position ++ Script.token "]") [.expr position] :=
      tokens (o := '[') rfl (.plain rfl rfl) (.plain rfl rfl) (expr position).space
    rw [Script.ofExpr, List.append_assoc (Script.ofExpr s array),
      List.append_assoc (Script.ofExpr s array)]
    exact frame ((expr array).append hinner)
  | assign span left op right =>
    exact frame (ofOperator (by cases op <;> rfl) _ left right)
  | binary span left op right =>
    exact frame (ofOperator (by cases op <;> rfl) _ left right)
  | instanceOf span operand t =>
    refine frame (ite ?_ ?_)
    · exact reject _ (calm rfl) (List.mem_singleton.2 rfl) _
    · exact ((expr operand).concat (plain rfl)).append (type t)
  | prefixed span op operand =>
    exact frame ((expr operand).space.cons (by cases op <;> rfl))
  | postfixed span operand op =>
    exact frame ((expr operand).concat (token (by cases op <;> rfl)))
  | conditional span condition yes no =>
    exact frame (((((expr condition).concat (token rfl)).append (expr yes).space).concat
      (token rfl)).append (expr no).space)
  | paren span inner =>
    exact frame (between (o := '(') rfl (.plain rfl rfl) (.plain rfl rfl) (expr inner).space)
  | cast span t operand =>
    exact frame ((between (o := '(') rfl (.plain rfl rfl) (.plain rfl rfl)
      (marked (type t)).space).append (expr operand).space)

/-! ## Variables and statements -/

theorem mark (c : Prop) [Decidable c] (p : Profile) :
    Weaves s n (if c then [.write p.marker] else []) [] := ite (marker p) nil

theorem ofFragment (f : Fragment) : Woven s (.fragment f) (Script.ofFragment s f)
    (Node.ofName f.name :: f.init?.toList.map .expr) := by
  have hinit : ∀ e : Expr, Weaves s (.fragment f) (Script.ofInit s (some e)) [.expr e] := by
    intro e
    rw [Script.ofInit]
    split
    · exact reject .bareArray ((token rfl).append (calm rfl)) (by simp) [_]
    · exact (token rfl).append (expr e).space
  have hname : Weaves s (.fragment f) ((if s.marking then [Stroke.write s.profile.marker] else [])
      ++ Script.ofName f.name) [Node.ofName f.name] := (mark _ _).append (name f.name)
  refine frame ?_
  by_cases hdims : f.extraDims > 0
  · rw [if_pos hdims]
    exact reject .variableDims (hname.concat (calm rfl)) (by simp) _
  · rw [if_neg hdims]
    refine hname.append ?_
    cases f.init? with
    | none => exact nil
    | some e => exact hinit e

theorem ofVariables {v : Variables} {words : List String}
    (hn : ∀ st : Stroke, st.isLocal = true → n.admits st = true)
    (hms : ∀ m ∈ v.modifiers, .modifier m ∈ n.children)
    (hwords : ∀ w ∈ words, Java.isName w = true) : Weaves s n (Script.ofVariables s words v)
      (.type v.type :: v.fragments.map .fragment) := by
  refine ((replaceModifiers hn hms hwords).append (type v.type)).append (commaList fun f _ => ?_)
  exact child (c := .fragment f) ⟨rfl, rfl, rfl, nofun⟩

theorem ofLocals {v : Variables} (hn : ∀ st : Stroke, st.isLocal = true → n.admits st = true)
    (hms : ∀ m ∈ v.modifiers, .modifier m ∈ n.children) :
    Weaves s n (Script.ofLocals s v) (.type v.type :: v.fragments.map .fragment) := by
  refine ofVariables hn hms fun w hw => ?_
  split at hw
  · obtain rfl := List.mem_singleton.1 hw
    rfl
  · cases hw

theorem ofParameter (q : Parameter) :
    Woven s (.parameter q) (Script.ofParameter s q) [.type q.type, Node.ofName q.name] := by
  have hmodifiers : Weaves s (.parameter q) (Script.replaceModifiers q.modifiers
      (Script.keywords (Script.parameterWord s) q.modifiers)) [] :=
    replaceModifiers (fun _ h => h) (fun m hm => by simp [Node.children, hm])
      (Keeps.isName_parameterWords s q.modifiers)
  have hmark := (mark (s := s) (n := .parameter q) (Script.needsMark s q.type = true) s.profile).space
  exact frame ((((hmodifiers.append (type q.type)).concat hmark).append (name q.name)).concat
    (ite (calm rfl) nil))

theorem ofCondition (e : Expr) : Weaves s n (Script.ofCondition s e) [.expr e] :=
  parens (expr e).space

theorem ofOption (e? : Option Expr) :
    Weaves s n (e?.toList.flatMap fun e => .copySpace :: Script.ofExpr s e) (e?.toList.map .expr) :=
  map fun e _ => (expr e).space

theorem ofForInit (init : ForInit) :
    Weaves s n (Script.commaList (Script.ofForInit s init)) (Node.ofForInit init) := by
  cases init with
  | exprs es => exact exprList es
  | locals span v =>
    exact commaList (l := [()]) fun _ _ => child (c := .locals span v) ⟨rfl, rfl, rfl, nofun⟩

theorem ofStmts (ts : List Stmt) : Weaves s n (Script.ofStmts s ts) (ts.map .stmt) := by
  induction ts with
  | nil => exact nil
  | cons t ts ih => exact (stmt t).space.append ih

section Statements

variable {t : Stmt}

theorem ofJump (word : String) (hword : (Stroke.keep word).isCalm Stroke.isPlain = true)
    (what : Rejection) (label? : Option SimpleName) :
    Weaves s (.stmt t) (Script.ofJump word what label?) (label?.toList.map Node.ofName) := by
  cases label? with
  | some label => exact reject _ (calm rfl) (List.mem_singleton.2 rfl) _
  | none => exact (token rfl).cons hword

theorem forEachHead (item : Parameter) (items : Expr) :
    Weaves s (.stmt t) (Script.forEachHead s item items) [.parameter item, .expr items] := by
  have hitem : Weaves s (.stmt t) (.copySpace :: Script.ofParameter s item) [.parameter item] :=
    (parameter item).space
  refine ite ?_ ?_
  · have hhead := (parens ((hitem.concat (token (t := ":") rfl)).append
      (expr items).space)).cons (a := .keep "for") rfl
    simpa using hhead
  · have hin : Weaves s (.stmt t) [.copyDelimiter, .swap ":" "in", .copyDelimiter] [] := calm rfl
    have hhead := (parens ((hitem.concat hin).append (expr items))).cons
      (a := .swap "for" "foreach") rfl
    simpa using hhead

theorem forHead (init : ForInit) (condition? : Option Expr) (updates : List Expr) :
    Weaves s (.stmt t) (.keep "for" :: Script.token "(" ++ Script.commaList (Script.ofForInit s init)
        ++ Script.token ";" ++ condition?.toList.flatMap (fun e => .copySpace :: Script.ofExpr s e)
        ++ Script.token ";" ++ Script.commaList (Script.ofExprs s updates) ++ Script.token ")")
      (Node.ofForInit init ++ condition?.toList.map .expr ++ updates.map .expr) := by
  have hsemicolon : Weaves s (.stmt t) (Script.token ";") [] := token rfl
  have hinner := ((((ofForInit init).concat hsemicolon).append (ofOption condition?)).concat
    hsemicolon).append (exprList updates)
  simpa using (parens hinner).cons (a := .keep "for") rfl

end Statements

/-- Local variables are written without their modifiers. -/
theorem ofStmt (t : Stmt) : Woven s (.stmt t) (Script.ofStmt s t)
    ((Node.childrenOfStmt t).filter (!·.isModifier)) := by
  have hframe : ∀ {r : Script}, (∀ span v, t ≠ .locals span v) →
      Weaves s (.stmt t) r (Node.childrenOfStmt t) →
      Woven s (.stmt t) (Script.framed t.span r) ((Node.childrenOfStmt t).filter (!·.isModifier)) := by
    intro r ht h
    have hvisited : (Node.childrenOfStmt t).filter (!·.isModifier) = Node.childrenOfStmt t :=
      Node.visited_stmt (b := true) ht
    rw [hvisited]
    exact h.frame
  cases t with
  | block span body =>
    refine hframe (by simp) (ite ?_ ?_)
    · exact between (o := '\x7b') rfl (.plain rfl rfl) (.plain rfl rfl) (ofStmts body)
    · exact (calm rfl).stop (a := .breach .strayBlock) (List.mem_singleton.2 rfl) rfl _
  | locals span v =>
    rw [Node.childrenOfStmt, Node.filter_ofVariables]
    exact frame ((ofLocals (n := .stmt (.locals span v)) (fun _ h => h)
      fun m hm => by simp [Node.children, Node.childrenOfStmt, Node.ofVariables, hm]).concat
      (token rfl))
  | expr span e => exact hframe (by simp) ((expr e).concat (token rfl))
  | ifThen span condition yes =>
    exact hframe (by simp) (((ofCondition condition).cons rfl).append (stmt yes).space)
  | ifElse span condition yes no =>
    exact hframe (by simp) (((((ofCondition condition).cons rfl).append (stmt yes).space).concat
      (token rfl)).append (stmt no).space)
  | whileLoop span condition body =>
    exact hframe (by simp) (((ofCondition condition).cons rfl).append (stmt body).space)
  | doLoop span body condition =>
    exact hframe (by simp) (((((stmt body).space.cons rfl).concat (token rfl)).append
      (ofCondition condition)).concat (token rfl))
  | forLoop span init condition? updates body =>
    exact hframe (by simp) ((forHead init condition? updates).append (stmt body).space)
  | forEach span item items body =>
    exact hframe (by simp) ((forEachHead item items).append (stmt body).space)
  | ret span value? => exact hframe (by simp) (((ofOption value?).cons rfl).concat (token rfl))
  | leave span label? => exact hframe (by simp) (ofJump "break" rfl _ label?)
  | next span label? => exact hframe (by simp) (ofJump "continue" rfl _ label?)
  | throwing span e => exact hframe (by simp) (((expr e).space.cons rfl).concat (token rfl))
  | empty span => exact hframe (by simp) (plain rfl)

/-! ## Declarations -/

theorem ofField (f : Field) : Woven s (.field f) (Script.ofField s f)
    (.type f.vars.type :: f.vars.fragments.map .fragment) :=
  frame ((ofVariables (n := .field f) (fun _ h => h)
    (fun m hm => by simp [Node.children, Node.ofVariables, hm]) (Keeps.isName_fieldWords s f)).concat
    (token rfl))

theorem dropThrows (m : Method) : Weaves s (.method m) (Script.dropThrows m) [] := by
  unfold Script.dropThrows
  split
  · rename_i t ht
    have hrule : (Node.type t).rule? ≠ none := by
      cases t with
      | primitive span k => cases k <;> nofun
      | _ => nofun
    have hjump : Weaves s (.method m) [.moveTo t.span.stop] [] :=
      own (.jump (c := .type t) (fun _ => rfl)
        (List.mem_cons_of_mem _ (by simp [Node.children, List.mem_of_getLast? ht])) hrule)
    exact (calm (r := [.skipSpace, .drop "throws"]) rfl).append hjump
  · exact nil

/-- A body is written unless it stands apart. -/
theorem ofMethodBody (m : Method) : Weaves s (.method m) (Script.ofMethodBody s m)
    (if s.keepsBodies then m.body?.toList.map Node.ofBlock else []) := by
  unfold Script.ofMethodBody
  rw [Setting.keepsBodies]
  cases hbody : m.body? with
  | none =>
    have hend : Weaves s (.method m) (.copySpace ::
        (if Script.isPure s m then [Stroke.write " = 0"] else []) ++ [Stroke.keep ";"]) [] :=
      (space (ite (plain rfl) nil)).append (plain rfl)
    simpa using hend
  | some b =>
    cases s.isCpp && !s.defining with
    | true =>
      have hjump : Weaves s (.method m) [.moveTo b.span.stop] [] :=
        own (.jump (c := Node.ofBlock b) (fun _ => rfl)
          (List.mem_cons_of_mem _ (by simp [Node.children, hbody])) (fun h => by cases h))
      exact hjump.cons rfl
    | false =>
      exact space (child (c := Node.ofBlock b) (k := { s with inBody := true })
        ⟨rfl, rfl, rfl, (by rintro _ ⟨⟩)⟩)

theorem ofMethod (m : Method) : Woven s (.method m) (Script.ofMethod s m)
    (m.returnType?.toList.map .type ++ Node.ofName m.name :: m.parameters.map .parameter
      ++ if s.keepsBodies then m.body?.toList.map Node.ofBlock else []) := by
  have hmodifiers : Weaves s (.method m) (Script.replaceModifiers m.modifiers
      (Script.methodWords s m)) [] :=
    replaceModifiers (fun _ h => h) (fun q hq => by simp [Node.children, hq])
      (Keeps.isName_methodWords s m)
  have hreturn : Weaves s (.method m) (Script.ofReturnType s m) (m.returnType?.toList.map .type) :=
    map fun t _ => (marked (type t)).concat (calm rfl)
  have hqualifier : Weaves s (.method m)
      (if s.defining then [.write (s.qualifier ++ "::")] else []) [] := ite (own (.qualifier m)) nil
  have hparameters : Weaves s (.method m) (Script.ofParameterList s m)
      (m.parameters.map .parameter) := parens (commaList fun q _ => parameter q)
  refine frame ?_
  simpa using (((((hmodifiers.append hreturn).concat hqualifier).append (name m.name)).append
    hparameters).concat (dropThrows m)).append (ofMethodBody m)

section Types

variable {d : TypeDecl}

theorem ofTypeParameters : Weaves s (.decl d) (Script.ofTypeParameters s d.head)
    (d.head.typeParameters.map .typeParameter) := by
  unfold Script.ofTypeParameters
  split
  · rename_i hnone
    rw [List.isEmpty_iff.1 hnone]
    exact nil
  · refine ite (reject _ (calm rfl) (List.mem_singleton.2 rfl) _) ?_
    have hlist : Weaves s (.decl d)
        (Script.commaList (d.head.typeParameters.map Script.ofTypeParameter))
        (d.head.typeParameters.map .typeParameter) :=
      commaList fun q _ => child (c := .typeParameter q) ⟨rfl, rfl, rfl, nofun⟩
    exact ((token rfl).append hlist).concat (token rfl)

theorem ofSupertypes : Weaves s (.decl d) (Script.ofSupertypes s d.head)
    ((d.head.extended ++ d.head.implemented).map .type) := by
  have hlist : ∀ ts : List Ty, Weaves s (.decl d)
      (Script.commaList (ts.map (Script.ofSupertype s))) (ts.map .type) := fun ts =>
    commaList fun t _ => (ite (plain rfl) nil : Weaves s (.decl d) _ []).append (type t)
  have hfirst := hlist d.head.extended
  have hsecond := hlist d.head.implemented
  rw [List.map_append]
  unfold Script.ofSupertypes
  split
  · rename_i he hi
    rw [he, hi]
    exact nil
  · rename_i he hi
    simpa [hi] using (hfirst.cons (a := .swap "extends" ":") rfl).space
  · rename_i he hi
    rw [he]
    exact (hsecond.cons rfl).space
  · exact (hfirst.cons rfl).space.append ((hsecond.cons rfl).cons rfl)

theorem ofMembers (current : Access) (ms : List Member) :
    Weaves s (.decl d) (Script.ofMembers { s with enclosing? := some d.head } d.head current ms)
      (ms.map Node.ofMember) := by
  induction ms generalizing current with
  | nil => exact nil
  | cons m ms ih =>
    have hm : Weaves s (.decl d) (Script.ofMember { s with enclosing? := some d.head } m)
        [Node.ofMember m] := by
      have h := child (s := s) (n := .decl d) (c := Node.ofMember m)
        (k := { s with enclosing? := some d.head }) ⟨rfl, rfl, rfl, fun _ _ => ⟨d, rfl, rfl⟩⟩
      cases m <;> exact h
    rw [Script.ofMembers]
    exact ((ite (calm rfl) nil : Weaves s (.decl d) _ []).append hm.space).append (ih _)

/-- A type's head opens the bracket that its end closes. -/
theorem ofDecl (d : TypeDecl) : Woven s (.decl d) (Script.ofDecl s d)
    (Node.ofName d.head.name :: d.head.typeParameters.map .typeParameter
      ++ (d.head.extended ++ d.head.implemented).map .type ++ d.body.map Node.ofMember) := by
  have hmodifiers : Weaves s (.decl d) (Script.replaceModifiers d.head.modifiers
      (Script.typeWords s d.head)) [] :=
    replaceModifiers (fun _ _ => rfl) (fun q hq => by simp [Node.children, Node.childrenOfHead, hq])
      (Keeps.isName_typeWords s d.head)
  have hkeyword : (Script.typeKeyword s d.head).isCalm Stroke.isPlain = true := by
    unfold Script.typeKeyword
    split
    · split <;> rfl
    · rfl
  have hclose : Own s (.decl d) ['\x7d'] (.swap "\x7d" (if s.isCpp then "\x7d;" else "\x7d")) := by
    split <;> exact .plain rfl rfl
  have hend : Weaves s (.decl d)
      (if s.isCpp && Script.isOutermost s d.head then [.copyLine, .trail] else []) [] := by
    split
    · rename_i hout
      exact (calm (r := [.copyLine]) rfl).append (own (.trail hout))
    · exact nil
  have hhead := ((hmodifiers.append ((name d.head.name).space.cons hkeyword)).append
    ofTypeParameters).append ofSupertypes
  have hbody := (pair (o := '\x7b') rfl (.plain (a := .keep "\x7b") rfl rfl) hclose
    ((ofMembers .priv d.body).concat (plain (r := [.copySpace]) rfl))).space
  rw [Script.ofDecl, Script.ofMember]
  refine frame ?_
  simpa [Script.ofHead, Script.ofEnd, Script.token] using (hhead.append hbody).concat hend

end Types

theorem ofModifier (m : Modifier) : Woven s (.modifier m) (Script.ofModifier s.isCpp m) [] := by
  cases m with
  | keyword span k =>
    refine frame (plain ?_)
    cases s.isCpp <;> cases k with
    | access a => cases a <;> rfl
    | _ => rfl
  | tag span x =>
    have hjump : Weaves s (.modifier (.tag span x)) [.moveTo span.stop] [] :=
      own (.jump (c := .modifier (.tag span x)) (fun _ => rfl) List.mem_cons_self nofun)
    exact frame (hjump.cons rfl)

theorem ofPackage (k : Package) : Woven s (.package k) (Script.ofPackage s k) [] := by
  have hname : Weaves s (.package k) (Script.dropName k.name) [] := dropName fun _ h => h
  refine frame (ite ?_ ?_)
  · exact ((hname.cons rfl).cons rfl).append (calm rfl)
  · exact ((calm (r := [.swap "package" "namespace", .copyDelimiter]) rfl).append hname).append
      ((own (.path k)).append (token rfl))

theorem ofImport (i : Import) : Woven s (.importing i) (Script.ofImport s i) [] := by
  have hjump : Weaves s (.importing i) [.moveTo i.span.stop] [] :=
    own (.jump (c := .importing i) (fun _ => rfl) List.mem_cons_self nofun)
  have hline : Weaves s (.importing i) ((Script.importLine s i).toList.map .write) [] := by
    cases h : Script.importLine s i with
    | none => exact nil
    | some t => exact own (.line h)
  exact frame (ite (calm rfl) ((hjump.append hline).cons rfl))

end Weaves

/-- The script of every node but a file is woven from the children that are written. -/
theorem woven_ofNode (s : Setting) (hunit : ∀ u, n ≠ .unit u) :
    Woven s n (Script.ofNode s n) (n.visited s.keepsBodies) := by
  cases n with
  | unit u => exact absurd rfl (hunit u)
  | package k => exact Weaves.ofPackage k
  | importing i => exact Weaves.ofImport i
  | decl d =>
    rw [Node.visited_decl]
    exact Weaves.ofDecl d
  | field f =>
    have hvisited : (Node.field f).visited s.keepsBodies
        = .type f.vars.type :: f.vars.fragments.map .fragment := Node.filter_ofVariables f.vars
    rw [hvisited]
    exact Weaves.ofField f
  | method m =>
    rw [Node.visited_method]
    exact Weaves.ofMethod m
  | parameter q =>
    rw [Node.visited_parameter]
    exact Weaves.ofParameter q
  | fragment f =>
    rw [Node.visited_fragment]
    exact Weaves.ofFragment f
  | modifier m => exact Weaves.ofModifier m
  | type t =>
    rw [Node.visited_type]
    exact Weaves.ofType t
  | typeParameter q => exact (Weaves.name q.name).frame
  | stmt t => exact Weaves.ofStmt t
  | expr e =>
    rw [Node.visited_expr]
    exact Weaves.ofExpr e
  | locals span v =>
    have hvisited : (Node.locals span v).visited s.keepsBodies
        = .type v.type :: v.fragments.map .fragment := Node.filter_ofVariables v
    rw [hvisited]
    exact (Weaves.ofLocals (n := .locals span v) (fun _ h => h)
      fun m hm => by simp [Node.children, Node.ofVariables, hm]).frame

/-- What holds of a script woven from nodes of which it holds, holds of the scripts of all nodes. -/
theorem ofNode_induction {M : Setting → Node → Prop}
    (hstep : ∀ s n body, Script.ofNode s n = Script.framed n.span body →
      Weaves s n body (n.visited s.keepsBodies) →
      (∀ c ∈ n.visited s.keepsBodies, ∀ k, s.Hands n c k → M k c) → M s n)
    (s : Setting) (n : Node) (hunit : ∀ u, n ≠ .unit u) : M s n := by
  obtain ⟨body, hbody, h⟩ := woven_ofNode s hunit
  refine hstep s n body hbody h fun c hc k _ => ?_
  have hchild := Node.mem_children_of_visited hc
  exact ofNode_induction hstep k c (Outline.ne_unit_of_mem_children hchild)
termination_by n.descendants.length
decreasing_by exact Outline.length_descendants_lt hchild

/-! ## The strokes of a node -/

theorem Stroke.isLevel_of_isPlain (h : st.isPlain = true) : st.isLevel = true := by
  cases st <;> first | rfl | cases h

theorem Stroke.isLocal_of_isLevel (h : st.isLevel = true) : st.isLocal = true := by
  cases st <;> first | rfl | exact h

/-- What a child is made of, its parent is made of. -/
theorem Java.Node.admits_of_child {k : Setting} {c : Node} (hk : s.Hands n c k)
    (hc : c ∈ n.children) (h : c.admits st = true) : n.admits st = true := by
  cases n with
  | unit u | decl d => rfl
  | package k | importing i | modifier m => cases hc
  | type t =>
    have htype : ∃ t', c = .type t' := by
      cases t <;> simp [children, childrenOfType] at hc <;> grind
    obtain ⟨t', rfl⟩ := htype
    exact h
  | typeParameter q =>
    obtain rfl := List.mem_singleton.1 hc
    exact h
  | fragment f =>
    have hexpr : ∃ e, c = .expr e := by
      simp [children, ofName] at hc
      grind
    obtain ⟨e, rfl⟩ := hexpr
    exact h
  | expr e =>
    have hkinds : (∃ t, c = .type t) ∨ ∃ e', c = .expr e' := by
      cases e <;> simp [children, childrenOfExpr, ofName] at hc <;> grind
    rcases hkinds with ⟨t, rfl⟩ | ⟨e', rfl⟩
    · exact Stroke.isLevel_of_isPlain h
    · exact h
  | _ =>
    cases c with
    | unit u => exact absurd rfl (Outline.ne_unit_of_mem_children hc u)
    | decl d =>
      obtain ⟨e, he, -⟩ := hk.enclosing d rfl
      cases he
    | type t => exact Stroke.isLocal_of_isLevel (Stroke.isLevel_of_isPlain h)
    | expr | typeParameter | fragment | package => exact Stroke.isLocal_of_isLevel h
    | _ => exact h

theorem Own.admitted {bs : List Char} (h : Own s n bs st) :
    n.admits st = true := by
  cases h with
  | fixed hn => exact hn
  | jump hn => exact hn _
  | name => exact n.admits_of_isPlain rfl
  | _ => rfl

theorem Weaves.all_admits {r : Script} {ns : List Node} (h : Weaves s n r ns)
    (hc : ∀ c ∈ ns, ∀ k, s.Hands n c k → (Script.ofNode k c).all n.admits = true) :
    r.all n.admits = true := by
  induction h with
  | nil => rfl
  | own hst => simp [hst.admitted]
  | child hk => exact hc _ (List.mem_singleton.2 rfl) _ hk
  | append _ _ ih ih' =>
    obtain ⟨hns, hns'⟩ := List.forall_mem_append.1 hc
    rw [List.all_append, ih hns, ih' hns']
    rfl
  | pair _ hst hst' _ ih => simp [hst.admitted, hst'.admitted, ih hc]
  | stop _ _ _ _ ih => exact ih (List.forall_mem_append.1 hc).1

/-- A node's script is made of the strokes that the node admits. -/
theorem admits_ofNode (s : Setting) (hunit : ∀ u, n ≠ .unit u) :
    (Script.ofNode s n).all n.admits = true := by
  refine ofNode_induction (M := fun s n => (Script.ofNode s n).all n.admits = true)
    (fun s n body hbody hweaves hc => ?_) s n hunit
  have hinner := hweaves.all_admits fun c hm k hk => List.all_eq_true.2 fun st hst =>
    Node.admits_of_child hk (Node.mem_children_of_visited hm)
      (List.all_eq_true.1 (hc c hm k hk) st hst)
  have henter : n.admits (.enter n.span) = true := n.admits_of_isPlain rfl
  have hleave : n.admits (.leave n.span) = true := n.admits_of_isPlain rfl
  simp [hbody, Script.framed, hinner, henter, hleave]

end Transcribe
