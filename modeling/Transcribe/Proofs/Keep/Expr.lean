/-
  Transcribe.Proofs.Keep.Expr — types and expressions keep the comments of the source.

  Of a type the comments inside a dotted name are passed over. An expression may end in a slash or
  an open literal of the source, as far as the pass is concerned; what follows it in the source goes
  on with it, and so does what is written. So the script of an expression leads to the stage at
  which only the source may go on, and a word of the script's own comes behind copied space.

  The regions of a node (`Node.lossy`) are where comments that are in none of its children are not
  copied. There are four kinds: an annotation, a dotted name, the space before the types a class
  implements, and all between the parameters of a method and the end of the types it throws.
  - `Node.lossy`: where a node's own comments are not copied.
  - `Orderly`: a source that is read in step, and words of the target without comments.
  - `ofType`, `ofExpr`: what types and expressions keep.
-/

import Transcribe.Proofs.Keep.Stroke
import Transcribe.Proofs.Spelling
import Transcribe.Proofs.Track.Expr

namespace Transcribe.Java

open Text (Span Source)

/-! ## Regions -/

def Method.closing (s : Source) (m : Method) : Nat :=
  let last := match m.parameters.getLast? with
    | some p => p.span.stop
    | none => s.skipSpace false m.name.span.stop + 1
  s.skipSpace false last + 1

def TypeHead.gap (s : Source) (h : TypeHead) : List Span :=
  match h.extended.getLast?, h.implemented with
  | some t, _ :: _ => [⟨t.span.stop, s.skipSpace false t.span.stop⟩]
  | _, _ => []

namespace Node

/-- Where the comments of a node that are in none of its children are not copied: an annotation, a
dotted name, the space before the types a class implements, and all between the parameters of a
method and the end of the types it throws. -/
def lossy (s : Source) : Node → List Span
  | .modifier (.tag span _) => [span]
  | .type (.simple t) => [t.span]
  | .decl d => d.head.gap s
  | .method m => m.thrown.getLast?.toList.map fun t => ⟨m.closing s, t.span.stop⟩
  | _ => []

def losses (s : Source) (ns : List Node) : List Span := ns.flatMap (lossy s)

variable {s : Source}

@[simp] theorem losses_nil : losses s [] = [] := rfl

@[simp] theorem losses_cons (n : Node) (ns : List Node) :
    losses s (n :: ns) = n.lossy s ++ losses s ns := rfl

@[simp] theorem losses_append (ns ms : List Node) :
    losses s (ns ++ ms) = losses s ns ++ losses s ms := List.flatMap_append

@[simp] theorem losses_flatMap {α : Type} (as : List α) (f : α → List Node) :
    losses s (as.flatMap f) = as.flatMap fun x => losses s (f x) := List.flatMap_assoc

@[simp] theorem lossy_expr (e : Expr) : (Node.expr e).lossy s = [] := rfl

@[simp] theorem lossy_ofName (n : SimpleName) : (Node.ofName n).lossy s = [] := rfl

@[simp] theorem lossy_fragment (f : Fragment) : (Node.fragment f).lossy s = [] := rfl

@[simp] theorem lossy_parameter (p : Parameter) : (Node.parameter p).lossy s = [] := rfl

@[simp] theorem lossy_typeParameter (p : TypeParameter) : (Node.typeParameter p).lossy s = [] := rfl

@[simp] theorem lossy_stmt (t : Stmt) : (Node.stmt t).lossy s = [] := rfl

@[simp] theorem lossy_field (f : Field) : (Node.field f).lossy s = [] := rfl

@[simp] theorem lossy_locals (span : Span) (v : Variables) : (Node.locals span v).lossy s = [] := rfl

theorem losses_names (ns : List SimpleName) : losses s (ns.map Node.ofName) = [] := by
  induction ns with
  | nil => rfl
  | cons n ns ih => simp [ih]

end Node

end Transcribe.Java

namespace Transcribe

open Text (Span Source Scan isBare)
open Text.Scan (Plain)
open Grammar (Lexeme calm)
open Java (Ty SimpleType SimpleName TypeParameter Expr Node Rule Good Sound)
open Java.Node (losses)

variable {sep : String} {t : Ty} {lost : List Span} {r : Script}

/-- A source that is read in step, and words of the target without comments. Only C++ needs comments
to be left out anywhere else than in the regions of nodes. -/
structure Orderly (j : Job) (ls : List (Lexeme Rule)) (strict : Bool) : Prop where
  clear : Java.Clear j.source ls
  primitive : ∀ k : Java.Primitive, Plain (j.profile.primitive (Java.word k)).toList
  renamed : ∀ n t, j.profile.renamed? n = some t → Plain t.toList
  strict_cpp : j.profile.isCpp = true → strict = false

/-! ## Words -/

/-- What holds of words, and of one text behind another, holds of words in a row. -/
theorem of_intercalate {P : List Char → Prop} (hnil : P [])
    (happend : ∀ v w, P v → P w → P (v ++ w)) {ts : List String} (hsep : P sep.toList)
    (hts : ∀ t ∈ ts, P t.toList) :
    P (sep.intercalate ts).toList := by
  induction ts with
  | nil => exact hnil
  | cons t ts ih =>
    obtain ⟨ht, hts⟩ := List.forall_mem_cons.1 hts
    cases ts with
    | nil => simpa using ht
    | cons u ts =>
      rw [String.intercalate_cons_cons, String.toList_append, String.toList_append]
      exact happend _ _ (happend _ _ ht hsep) (ih hts)

theorem calm_intercalate {ts : List String} (hsep : calm sep.toList = true)
    (hts : ∀ t ∈ ts, calm t.toList = true) : calm (sep.intercalate ts).toList = true :=
  of_intercalate (P := fun w => calm w = true) rfl (fun _ _ => Grammar.calm_append) hsep hts

theorem isBare_intercalate {ts : List String} (hsep : isBare sep.toList = true)
    (hts : ∀ t ∈ ts, isBare t.toList = true) : isBare (sep.intercalate ts).toList = true :=
  of_intercalate (P := fun w => isBare w = true) rfl (fun _ _ => Text.isBare_append) hsep hts

theorem calm_of_identifier {t : String} (h : Java.Spells .identifier t.toList) :
    calm t.toList = true ∧ t ≠ "" := by
  obtain ⟨hne, hchars⟩ := h.identifier
  exact ⟨Java.calm_of_isIdentChar hchars, by simpa using hne⟩

def Java.isName (t : String) : Bool := t.toList.all isIdentChar

theorem calm_of_isName {t : String} (h : Java.isName t = true) : calm t.toList = true :=
  Java.calm_of_isIdentChar (List.all_eq_true.1 h)

theorem calm_joined {n : Java.Name} (hsep : calm sep.toList = true)
    (h : ∀ x ∈ n.segments, Java.Spells .identifier x.text.toList) :
    calm (n.joined sep).toList = true := by
  refine calm_intercalate hsep fun t ht => ?_
  obtain ⟨x, hx, rfl⟩ := List.mem_map.1 ht
  exact (calm_of_identifier (h x hx)).1

theorem isBare_joined {n : Java.Name} (hsep : isBare sep.toList = true)
    (h : ∀ x ∈ n.segments, Java.Spells .identifier x.text.toList) :
    isBare (n.joined sep).toList = true := by
  refine isBare_intercalate hsep fun t ht => ?_
  obtain ⟨x, hx, rfl⟩ := List.mem_map.1 ht
  exact (h x hx).isBare

theorem plain_marker (p : Target.Profile) : Plain p.marker.toList := by
  refine Scan.plain_of_calm ?_
  unfold Target.Profile.marker
  cases p.pointerStyle <;> rfl

theorem Java.Good.start_lt {s : Source} {ls : List (Lexeme Rule)} {n : Node} (h : Good s ls n) :
    n.span.start < s.size :=
  Nat.lt_of_lt_of_le h.solid.lt (Source.le_size h.solid.right)

namespace Needs

variable {j : Job} {ls : List (Lexeme Rule)}

theorem ofName {n : SimpleName} (h : Good j.source ls (Node.ofName n)) :
    Needs j (Script.ofName n) := .framed h.start_lt

theorem ofType (h : Good j.source ls (.type t)) :
    Needs j (Script.ofType j.profile t) := by
  cases t with
  | primitive | simple | array | generic => exact .framed h.start_lt

theorem ofMarkedType (h : Good j.source ls (.type t)) :
    Needs j (Script.ofMarkedType j.profile t) := by
  rw [Script.ofMarkedType, Script.marked]
  split
  · exact (ofType h).append
  · exact ofType h

end Needs

namespace Keeps

variable {j : Job} {ls : List (Lexeme Rule)} {strict : Bool}

/-! ## Names and types -/

theorem ofName {n : SimpleName} (h : Good j.source ls (Node.ofName n)) :
    Keeps j strict .loose .code [] (Script.ofName n) := by
  obtain ⟨hcalm, hne⟩ := calm_of_identifier h.name
  exact frame_of (keep_loose hcalm hne _)

/-- A name behind text of the target's own. -/
theorem ofName_ready {n : SimpleName} (h : Good j.source ls (Node.ofName n)) :
    Keeps j strict .ready .code [] (Script.ofName n) := (ofName h).mono rfl rfl

theorem marked (t : Ty) (h : Keeps j strict .ready .code lost r) :
    Keeps j strict .ready .code lost (Script.marked j.profile t r) := by
  rw [Script.marked]
  split
  · simpa using h.append (write (plain_marker j.profile))
  · exact h

theorem plain_className (hj : Orderly j ls strict) {t : SimpleType} (h : Good j.source ls (.type (.simple t))) :
    Plain (Script.className j.profile t).toList := by
  unfold Script.className
  split
  · rename_i spelling hrenamed
    exact hj.renamed _ _ hrenamed
  · refine Scan.plain_of_calm (calm_joined ?_ h.segments)
    split <;> rfl

theorem ofSimpleType (hj : Orderly j ls strict) {t : SimpleType} (h : Good j.source ls (.type (.simple t))) :
    Keeps j strict .ready .code [t.span] (Script.ofSimpleType j.profile t) :=
  frame_moves [Script.className j.profile t] h.start_lt (Nat.le_of_lt h.solid.lt)
    (h.onCode hj.clear rfl).2 (isMove_dropName t.name) (by simpa using plain_className hj h)

theorem keepBrackets (hj : Orderly j ls strict) (n : Nat) : Keeps j strict .code .code [] (Script.keepBrackets n) := by
  have hs := hj.clear.isSealed
  have hpair : Keeps j strict .code .code [] (Script.token "[" ++ Script.token "]") :=
    (token_code hs rfl (by decide)).append (token_code hs rfl (by decide))
  induction n with
  | zero => exact nil
  | succ n ih =>
    simpa [Script.keepBrackets, List.replicate_succ] using hpair.append ih

/-- Only C++ closes arrays in this way. -/
theorem closeArrays (hj : Orderly j ls strict) (hcpp : j.profile.isCpp = true) (n : Nat) :
    Keeps j strict .code .code [] (Script.closeArrays j.profile n) := by
  have hskip := skipSpace (hj.strict_cpp hcpp) hj.clear.isSealed
  have hpair : Keeps j strict .code .code []
      [.skipSpace, .drop "[", .skipSpace, .drop "]", .write ">"] :=
    hskip.cons ((drop rfl).cons (hskip.cons ((drop rfl).cons (write (Scan.plain_of_calm rfl)))))
  have h : Keeps j strict .code .code ((List.replicate n ()).flatMap fun _ => [])
      ([Stroke.write j.profile.marker].intercalate ((List.replicate n ()).map fun _ => _)) :=
    intercalate (write (plain_marker j.profile)) fun _ _ => hpair
  have hnone : ((List.replicate n ()).flatMap fun _ => ([] : List Span)) = [] := by simp
  rw [hnone, List.map_replicate] at h
  exact h

mutual

theorem ofType (hj : Orderly j ls strict) {t : Ty} (h : Sound j.source ls (.type t)) :
    Keeps j strict .ready .code (losses j.source (Node.underType t))
      (Script.ofType j.profile t) := by
  have hs := hj.clear.isSealed
  cases t with
  | primitive span k =>
    refine frame h.self.start_lt ?_
    exact swap (by cases k <;> rfl) (hj.primitive k) _
  | simple t => exact ofSimpleType hj h.self
  | array span element dims =>
    rw [Script.ofType, Node.underType]
    refine frame h.self.start_lt ?_
    have helement := ofType (t := element) hj h.part
    split
    · rename_i hcpp
      have hopen : Keeps j strict .code .code [] (List.replicate dims (Stroke.write "Array<")) := by
        simpa using writes (List.replicate dims "Array<") fun t ht => by
          rw [(List.mem_replicate.1 ht).2]
          exact Scan.plain_of_calm rfl
      simpa [Node.lossy] using
        ((hopen.append (marked element helement).of_code).append (closeArrays hj hcpp dims)) span.start
    · simpa [Node.lossy] using (helement.of_code.append (keepBrackets hj dims)) span.start
  | generic span base arguments =>
    rw [Script.ofType, Node.underType, Tracks.ofArguments_eq, Node.underTypes_eq]
    refine frame h.self.start_lt ?_
    have hbase := ofSimpleType (t := base) hj h.part.self
    have hsound : ∀ t ∈ arguments, Sound j.source ls (.type t) := fun _ ht => h.part
    have harguments := commaList hs rfl fun t ht => marked t (ofTypes hj hsound t ht)
    simpa [Node.lossy] using
      (((hbase.of_code.append (token_code hs rfl (by decide))).append harguments).append
        (token_code hs rfl (by decide))) span.start

theorem ofTypes (hj : Orderly j ls strict) {ts : List Ty}
    (h : ∀ t ∈ ts, Sound j.source ls (.type t)) : ∀ t ∈ ts,
    Keeps j strict .ready .code (losses j.source (Node.underType t))
      (Script.ofType j.profile t) := by
  cases ts with
  | nil => simp
  | cons t ts =>
    obtain ⟨ht, hts⟩ := List.forall_mem_cons.1 h
    exact List.forall_mem_cons.2 ⟨ofType hj ht, ofTypes hj hts⟩

end

theorem ofMarkedType (hj : Orderly j ls strict) (h : Sound j.source ls (.type t)) :
    Keeps j strict .ready .code (losses j.source (Node.underType t))
      (Script.ofMarkedType j.profile t) := marked t (ofType hj h)

theorem ofTypeParameter {t : TypeParameter} (h : Sound j.source ls (.typeParameter t)) :
    Keeps j strict .ready .code [] (Script.ofTypeParameter t) :=
  frame_of (ofName_ready h.part.self _)

/-! ## Expressions -/

variable {s : Setting}

theorem selector (hs : j.source.Sealed) (e : Expr) :
    Keeps j strict .loose .ready [] (Script.selector s e) := by
  have hseparator : ∀ {t : String}, t ∈ ["::", "->", "."] →
      Keeps j strict .loose .code [] [.swap "." t] := by
    intro t ht
    simp only [List.mem_cons, List.not_mem_nil, or_false] at ht
    rcases ht with rfl | rfl | rfl
    all_goals
      exact swap_loose rfl rfl (Scan.plain_of_calm rfl) (by simp)
        (follows_of_ne rfl (by decide) (by decide))
  have hmem : Script.separator s e ∈ ["::", "->", "."] := by
    unfold Script.separator
    split
    · split <;> simp
    · simp
  exact space_loose hs ((hseparator hmem).cons (copySpace hs).of_code)

theorem newWord (hs : j.source.Sealed) : Keeps j strict .loose .ready [] Script.newWord :=
  (keep_loose rfl (by decide)).cons (copyDelimiter hs)

/-- `new T[` of an array in C++. -/
theorem openArray (hj : Orderly j ls strict) (hcpp : j.profile.isCpp = true)
    (h : Sound j.source ls (.type t)) :
    Keeps j strict .loose .code (losses j.source (Node.underType t))
      (Script.openArray j.profile t) := by
  have hs := hj.clear.isSealed
  have hclose : Keeps j strict .code .code [] [.write ">", .skipSpace, .swap "[" "("] :=
    (write (Scan.plain_of_calm rfl)).cons ((skipSpace (hj.strict_cpp hcpp) hs).cons
      (swap rfl (Scan.plain_of_calm rfl)))
  have htype : Keeps j strict .code .code (losses j.source (Node.underType t))
      (.write "Array<" :: Script.ofMarkedType j.profile t) :=
    (write (Scan.plain_of_calm rfl)).cons (ofMarkedType hj h).of_code
  have hneeds := (Needs.ofMarkedType h.self).write "Array<"
  simpa [Script.openArray] using ((newWord hs).append (htype.of_needs hneeds)).append hclose

section

variable {α : Type} {as : List α} {f : α → Script} {m : α → List Span}

theorem ofArgumentList (hs : j.source.Sealed)
    (h : ∀ x ∈ as, Keeps j strict .loose .loose (m x) (f x)) :
    Keeps j strict .code .code (as.flatMap m) (Script.ofArgumentList (as.map f)) := by
  simpa [Script.ofArgumentList] using
    ((token_code hs rfl (by decide)).append (commaList hs rfl fun x hx => (h x hx).of_ready)).append
      (token hs rfl (by decide))

theorem ofItems (hs : j.source.Sealed) (h : ∀ x ∈ as, Keeps j strict .loose .loose (m x) (f x)) :
    Keeps j strict .loose .code (as.flatMap m) (Script.ofItems (as.map f)) := by
  have hcomma : Keeps j strict .loose .loose [] [.copySpace, .keepIf ","] :=
    space_loose hs (keepIf rfl (by decide) rfl)
  simpa [Script.ofItems] using
    (((keep_loose rfl (by decide)).cons (commaList hs rfl fun x hx => (h x hx).of_ready)).append
      hcomma).append (token hs rfl (by decide))

theorem newSizedCpp (hj : Orderly j ls strict) (hcpp : j.profile.isCpp = true)
    (ht : Sound j.source ls (.type t)) (h : ∀ x ∈ as, Keeps j strict .loose .loose (m x) (f x))
    (n : Nat) (lost : List Span) :
    Keeps j strict .loose .code lost (Script.newSizedCpp j.profile t (as.map f) n) := by
  have hs := hj.clear.isSealed
  have hstrict := hj.strict_cpp hcpp
  unfold Script.newSizedCpp
  split
  · exact reject _
  · cases as with
    | nil =>
      have hclose : Keeps j strict .code .code [] [.skipSpace, .drop "]", .write ")"] :=
        (skipSpace hstrict hs).cons ((drop rfl).cons (write (Scan.plain_of_calm rfl)))
      exact ((openArray hj hcpp ht).append hclose).forget hstrict
    | cons x as =>
      have hclose : Keeps j strict .loose .code [] [.copySpace, .swap "]" ")"] :=
        space_loose hs (swap_loose rfl rfl (Scan.plain_of_calm rfl) (by simp)
          (follows_of_ne rfl (by decide) (by decide)))
      have hlength := space hs (h x List.mem_cons_self).of_ready
      exact (((openArray hj hcpp ht).append hlength).append hclose).forget hstrict

theorem newSizedCsharp (hj : Orderly j ls strict) (ht : Sound j.source ls (.type t))
    (h : ∀ x ∈ as, Keeps j strict .loose .loose (m x) (f x)) (n : Nat) :
    Keeps j strict .loose .code (losses j.source (Node.underType t) ++ as.flatMap m)
      (Script.newSizedCsharp j.profile t (as.map f) n) := by
  have hs := hj.clear.isSealed
  have hlengths : Keeps j strict .code .code (as.flatMap m)
      (as.flatMap fun x => Script.token "[" ++ .copySpace :: f x ++ Script.token "]") :=
    flatMap fun x hx => by
      simpa using ((token_code hs rfl (by decide)).append (space hs (h x hx).of_ready)).append
        (token hs rfl (by decide))
  simpa [Script.newSizedCsharp, List.flatMap_map] using
    (((newWord hs).append (ofType hj ht)).append hlengths).append (keepBrackets hj n)

end

theorem newListedCpp (hj : Orderly j ls strict) (hcpp : j.profile.isCpp = true)
    (ht : Sound j.source ls (.type t)) (h : Keeps j strict .loose .code lost r) (n : Nat)
    (lost' : List Span) :
    Keeps j strict .loose .code lost' (Script.newListedCpp j.profile t n r) := by
  have hstrict := hj.strict_cpp hcpp
  have hskip := skipSpace hstrict hj.clear.isSealed
  rw [Script.newListedCpp]
  split
  · exact reject _
  · have hclose : Keeps j strict .code .code [] [.skipSpace, .drop "]", .skipSpace] :=
      hskip.cons ((drop rfl).cons hskip)
    exact ((((openArray hj hcpp ht).append hclose).append h.of_code).append
      (write (Scan.plain_of_calm rfl))).forget hstrict

theorem newListedCsharp (hj : Orderly j ls strict) (ht : Sound j.source ls (.type t))
    (h : Keeps j strict .loose .code lost r) (n : Nat) :
    Keeps j strict .loose .code (losses j.source (Node.underType t) ++ lost)
      (Script.newListedCsharp j.profile t n r) := by
  have hs := hj.clear.isSealed
  simpa [Script.newListedCsharp] using
    (((newWord hs).append (ofType hj ht)).append (keepBrackets hj n)).append (space hs h.of_ready)

/-- An operator between two operands. A slash is read with what follows it. -/
theorem ofOperator (hs : j.source.Sealed) {op : String} {lost' : List Span} {r' : Script}
    (hop : op = "/" ∨ calm op.toList = true ∧ op ≠ "") (h : Keeps j strict .loose .loose lost r)
    (h' : Keeps j strict .loose .loose lost' r') (rejected? : Option Rejection) :
    Keeps j strict .loose .loose (lost ++ lost') (Script.ofOperator r op rejected? r') := by
  cases rejected? with
  | some what => exact h.append (space_loose hs (reject what))
  | none =>
    have htoken : Keeps j strict .loose .loose [] (Script.token op) := by
      rcases hop with rfl | ⟨hcalm, hne⟩
      · exact divide hs
      · exact (token hs hcalm hne).mono rfl rfl
    have hmiddle : Keeps j strict .loose .loose [] [.copySpace, .keep op, .copySpace] :=
      htoken.append (copySpace_loose hs)
    simpa [Script.ofOperator] using (h.append hmiddle).append h'

theorem literalWord (hj : Orderly j ls strict) {span : Span} {kind : Java.LiteralKind} {t : String}
    (h : Good j.source ls (.expr (.literal span kind t))) :
    KeepsAt j strict span.start .loose .loose [] [Script.literalWord s kind t] := by
  rw [Script.literalWord]
  split
  · exact ((swap_loose rfl rfl (Scan.plain_of_calm rfl) (by simp)
      (follows_self 'n' _)).mono rfl rfl) _
  · rcases h.literal hj.clear with ⟨hcalm, hne⟩ | ⟨q, v, ht, hq, hloop⟩
    · exact ((keep_loose hcalm hne).mono rfl rfl) _
    · exact keepLiteral hq ht hloop

mutual

theorem ofExpr (hj : Orderly j ls strict) (hprofile : s.profile = j.profile) {e : Expr}
    (h : Sound j.source ls (.expr e)) :
    Keeps j strict .loose .loose (losses j.source (Node.underExpr e)) (Script.ofExpr s e) := by
  have hs := hj.clear.isSealed
  have hcpp : s.isCpp = j.profile.isCpp := congrArg Target.Profile.isCpp hprofile
  cases e with
  | literal span kind word => exact frame_of (literalWord hj h.self)
  | name n => exact (ofName h.self).loosen
  | self span => exact loosen (frame_of (keep_loose rfl (by decide) _))
  | field span target name =>
    rw [Script.ofExpr, Node.underExpr]
    have htarget := ofExpr (e := target) hj hprofile h.part
    have hname : Keeps j strict .ready .code [] (Script.ofName name) := ofName_ready h.part.self
    refine loosen (frame_of ?_)
    simpa using ((htarget.append (selector hs target)).append hname) span.start
  | call span name arguments =>
    rw [Script.ofExpr, Node.underExpr, Tracks.ofExprs_eq, Node.underExprs_eq]
    have hname : Keeps j strict .loose .code [] (Script.ofName name) := ofName h.part.self
    have harguments := ofExprs hj hprofile arguments fun _ he => h.part
    refine loosen (frame_of ?_)
    simpa using (hname.append (ofArgumentList hs harguments)) span.start
  | invoke span target name arguments =>
    rw [Script.ofExpr, Node.underExpr, Tracks.ofExprs_eq, Node.underExprs_eq]
    have htarget := ofExpr (e := target) hj hprofile h.part
    have hname : Keeps j strict .ready .code [] (Script.ofName name) := ofName_ready h.part.self
    have harguments := ofExprs hj hprofile arguments fun _ he => h.part
    refine loosen (frame_of ?_)
    simpa using (((htarget.append (selector hs target)).append hname).append
      (ofArgumentList hs harguments)) span.start
  | create span type arguments =>
    rw [Script.ofExpr, Node.underExpr, Tracks.ofExprs_eq, Node.underExprs_eq, hprofile]
    have htype := ofType (t := type) hj h.part
    have harguments := ofExprs hj hprofile arguments fun _ he => h.part
    refine loosen (frame_of ?_)
    simpa using (((newWord hs).append htype).append (ofArgumentList hs harguments)) span.start
  | newSized span element lengths extraDims =>
    rw [Script.ofExpr, Node.underExpr, Tracks.ofExprs_eq, Node.underExprs_eq, hprofile]
    have htype := h.part (c := .type element)
    have hlengths := ofExprs hj hprofile lengths fun _ he => h.part
    refine loosen (frame_of ?_)
    split
    · rename_i hc
      exact newSizedCpp hj (hcpp ▸ hc) htype hlengths extraDims _ _
    · simpa using newSizedCsharp hj htype hlengths extraDims span.start
  | newListed span element extraDims listSpan items =>
    rw [Script.ofExpr, Node.underExpr, Tracks.ofExprs_eq, Node.underExprs_eq, hprofile]
    have htype := h.part (c := .type element)
    have hlist := h.part (c := .expr (.arrayInit listSpan items))
    have hitems := ofExprs hj hprofile items fun _ he => hlist.part
    have hframed : Keeps j strict .loose .code _
      (Script.framed listSpan (Script.ofItems (items.map (Script.ofExpr s)))) :=
      frame_of (ofItems hs hitems _)
    refine loosen (frame_of ?_)
    dsimp only
    split
    · rename_i hc
      exact newListedCpp hj (hcpp ▸ hc) htype hframed extraDims _ _
    · simpa using newListedCsharp hj htype hframed extraDims span.start
  | arrayInit span items =>
    rw [Script.ofExpr, Node.underExpr, Tracks.ofExprs_eq, Node.underExprs_eq]
    have hitems := ofExprs hj hprofile items fun _ he => h.part
    refine loosen (frame_of ?_)
    simpa using ofItems hs hitems span.start
  | index span array position =>
    rw [Script.ofExpr, Node.underExpr]
    have harray := ofExpr (e := array) hj hprofile h.part
    have hposition := ofExpr (e := position) hj hprofile h.part
    refine loosen (frame_of ?_)
    simpa using (((harray.append (token hs rfl (by decide))).append
      (space hs hposition.of_ready)).append (token hs rfl (by decide))) span.start
  | assign span left op right =>
    rw [Script.ofExpr, Node.underExpr]
    have hleft := ofExpr (e := left) hj hprofile h.part
    have hright := ofExpr (e := right) hj hprofile h.part
    have hop : Java.word op = "/" ∨ calm (Java.word op).toList = true ∧ Java.word op ≠ "" := by
      cases op <;> decide
    refine frame_of ?_
    simpa using ofOperator hs hop hleft hright (Script.rejectedAssign? s op) span.start
  | binary span left op right =>
    rw [Script.ofExpr, Node.underExpr]
    have hleft := ofExpr (e := left) hj hprofile h.part
    have hright := ofExpr (e := right) hj hprofile h.part
    have hop : Java.word op = "/" ∨ calm (Java.word op).toList = true ∧ Java.word op ≠ "" := by
      cases op <;> decide
    refine frame_of ?_
    simpa using ofOperator hs hop hleft hright (Script.rejectedInfix? s op) span.start
  | instanceOf span operand type =>
    rw [Script.ofExpr, Node.underExpr, hprofile]
    have hoperand := ofExpr (e := operand) hj hprofile h.part
    have htype := ofType (t := type) hj h.part
    have hword : Keeps j strict .loose .ready []
        [.copySpace, .swap "instanceof" "is", .copySpace] :=
      space_loose hs ((swap_loose rfl rfl (Scan.plain_of_calm rfl) (by simp)
        (follows_self 'i' _)).cons (copySpace hs).of_code)
    refine loosen (frame_of ?_)
    split
    · exact reject _ _
    · simpa using ((hoperand.append hword).append htype) span.start
  | prefixed span op operand =>
    rw [Script.ofExpr, Node.underExpr]
    have hoperand := ofExpr (e := operand) hj hprofile h.part
    have hop : calm (Java.word op).toList = true ∧ Java.word op ≠ "" := by cases op <;> decide
    refine frame_of ?_
    simpa using ((keep_loose hop.1 hop.2).cons (space hs hoperand.of_ready)) span.start
  | postfixed span operand op =>
    rw [Script.ofExpr, Node.underExpr]
    have hoperand := ofExpr (e := operand) hj hprofile h.part
    have hop : calm (Java.word op).toList = true ∧ Java.word op ≠ "" := by cases op <;> decide
    refine loosen (frame_of ?_)
    simpa using (hoperand.append (token hs hop.1 hop.2)) span.start
  | conditional span condition yes no =>
    rw [Script.ofExpr, Node.underExpr]
    have hcondition := ofExpr (e := condition) hj hprofile h.part
    have hyes := ofExpr (e := yes) hj hprofile h.part
    have hno := ofExpr (e := no) hj hprofile h.part
    refine frame_of ?_
    simpa using ((((hcondition.append (token hs rfl (by decide))).append
      (space hs hyes.of_ready)).append (token hs rfl (by decide))).append
      (space hs hno.of_ready)) span.start
  | paren span inner =>
    rw [Script.ofExpr, Node.underExpr]
    have hinner := ofExpr (e := inner) hj hprofile h.part
    refine loosen (frame_of ?_)
    simpa using (((keep_loose rfl (by decide)).cons (space hs hinner.of_ready)).append
      (token hs rfl (by decide))) span.start
  | cast span type operand =>
    rw [Script.ofExpr, Node.underExpr, hprofile]
    have htype := ofMarkedType (t := type) hj h.part
    have hoperand := ofExpr (e := operand) hj hprofile h.part
    refine frame_of ?_
    simpa using ((((keep_loose rfl (by decide)).cons (space hs htype)).append
      (token_code hs rfl (by decide))).append (space hs hoperand.of_ready)) span.start

theorem ofExprs (hj : Orderly j ls strict) (hprofile : s.profile = j.profile) (es : List Expr)
    (h : ∀ e ∈ es, Sound j.source ls (.expr e)) : ∀ e ∈ es,
    Keeps j strict .loose .loose (losses j.source (Node.underExpr e)) (Script.ofExpr s e) := by
  cases es with
  | nil => simp
  | cons e es =>
    obtain ⟨he, hes⟩ := List.forall_mem_cons.1 h
    exact List.forall_mem_cons.2 ⟨ofExpr hj hprofile he, ofExprs hj hprofile es hes⟩

end

end Keeps

end Transcribe
