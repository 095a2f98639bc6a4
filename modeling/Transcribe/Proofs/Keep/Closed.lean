/-
  Transcribe.Proofs.Keep.Closed — a script closes every bracket that it opens.

  The words of a tree have no brackets, or have them between quotes, and the words of the target
  have none (`Setting.Bare`). So the brackets that a script writes are its own, and it closes each
  one behind the scripts of the nodes in between. Since a script is woven from its own strokes and
  the scripts of its children, with its brackets in pairs, the proof is one induction over nodes.
  - `closed_ofNode`: the brackets that the script of a node writes are nested.
-/

import Transcribe.Proofs.Keep.Unit
import Transcribe.Proofs.ChildScripts

namespace Transcribe

open Text (Source Scan Nested closer? isBare)
open Grammar (Lexeme calm)
open Java (Package Import CompilationUnit Node Rule Good Sound Spells)

/-! ## Words -/

structure Setting.Bare (s : Setting) : Prop where
  primitive : ∀ k : Java.Primitive, isBare (s.profile.primitive (Java.word k)).toList = true
  renamed : ∀ n t, s.profile.renamed? n = some t → isBare t.toList = true
  qualifier : isBare s.qualifier.toList = true

/-- What a node's own words are: names, and literals without brackets of code. -/
def Java.Node.Worded : Node → Prop
  | .expr (.name n) => Spells .identifier n.text.toList
  | .expr (.literal _ _ t) => Scan.brackets .code t.toList = []
  | .type (.simple t) => ∀ x ∈ t.name.segments, Spells .identifier x.text.toList
  | .package p => ∀ x ∈ p.name.segments, Spells .identifier x.text.toList
  | .importing i => ∀ x ∈ i.name.segments, Spells .identifier x.text.toList
  | _ => True

theorem Java.Good.worded {s : Source} {ls : List (Lexeme Rule)} {n : Node} (h : Good s ls n)
    (hclear : Java.Clear s ls) : n.Worded := by
  cases n with
  | expr e =>
    cases e with
    | name n => exact h.name
    | literal span kind t => exact h.literal_brackets hclear
    | _ => trivial
  | type t =>
    cases t with
    | simple t => exact h.segments
    | _ => trivial
  | package p => exact h.packageName
  | importing i => exact h.importName
  | _ => trivial

theorem Java.Sound.worded {s : Source} {ls : List (Lexeme Rule)} {n : Node} (h : Sound s ls n)
    (hclear : Java.Clear s ls) : n.All Node.Worded := fun m hm => (h m hm).worded hclear

/-! ## Parts of scripts -/

theorem Stroke.brackets_write {t : String} (h : isBare t.toList = true) :
    (Stroke.write t).brackets = [] := Scan.brackets_of_isBare h

namespace Script

def Closed (r : Script) : Prop := Nested r.brackets

end Script

namespace Script

theorem brackets_ite {c : Prop} [Decidable c] {r : Script} (h : r.brackets = []) :
    Script.brackets (if c then r else []) = [] := by
  split
  · exact h
  · rfl

theorem brackets_flatMap {α : Type} {as : List α} {f : α → Script}
    (h : ∀ x ∈ as, (f x).brackets = []) : Script.brackets (as.flatMap f) = [] := by
  induction as with
  | nil => rfl
  | cons x as ih =>
    obtain ⟨hx, has⟩ := List.forall_mem_cons.1 h
    rw [List.flatMap_cons, brackets_append, hx, ih has]
    rfl

namespace Closed

variable {r r' : Script}

theorem nil : Closed [] := Nested.nil

theorem still (h : r.brackets = []) : Closed r := by
  rw [Closed, h]
  exact .nil

theorem append (h : Closed r) (h' : Closed r') : Closed (r ++ r') := by
  rw [Closed, brackets_append]
  exact Nested.append h h'

theorem cons {st : Stroke} (hst : st.brackets = []) (h : Closed r) : Closed (st :: r) := by
  rw [Closed, brackets_cons, hst]
  exact h

/-- A script between a bracket and its counterpart. -/
theorem enclose {o c : Char} {l l' : Script} (hc : closer? o = some c) (hl : l.brackets = [o])
    (h : Closed r) (hl' : l'.brackets = [c]) : Closed (l ++ r ++ l') := by
  rw [Closed, brackets_append, brackets_append, hl, hl']
  exact Nested.enclose hc h

theorem flatMap {α : Type} {as : List α} {f : α → Script} (h : ∀ x ∈ as, Closed (f x)) :
    Closed (as.flatMap f) := by
  induction as with
  | nil => exact nil
  | cons x as ih =>
    obtain ⟨hx, has⟩ := List.forall_mem_cons.1 h
    exact hx.append (ih has)

end Closed

/-! ## Sources -/

section Sources

variable {s : Setting}

theorem brackets_ofPackage {p : Package} (h : (Node.package p).Worded) :
    (ofPackage s p).brackets = [] := by
  have hname : (dropName p.name).brackets = [] := brackets_moves (isMove_dropName p.name)
  have hjoined : (Stroke.write (p.name.joined ".")).brackets = [] :=
    Stroke.brackets_write (isBare_joined rfl h)
  unfold ofPackage
  rw [brackets_framed]
  split
  · rw [brackets_append, brackets_cons, brackets_cons, hname]
    rfl
  · rw [brackets_append, brackets_cons, brackets_cons, hname, brackets_cons, hjoined]
    rfl

theorem isBare_importLine {i : Import} (h : (Node.importing i).Worded) {line : String}
    (hline : importLine s i = some line) : isBare line.toList = true := by
  unfold importLine at hline
  split at hline
  · split at hline
    · cases hline
    · cases hline
      simp only [String.toList_append]
      exact Text.isBare_append (Text.isBare_append rfl
        (Java.isBare_of_isIdentChar (isIdentChar_last h))) rfl
  · obtain ⟨n, hn, rfl⟩ := Option.map_eq_some_iff.1 hline
    have hbare : isBare n.toList = true := by
      split at hn
      · cases hn
        exact isBare_joined rfl h
      · unfold Java.Name.qualifier? at hn
        split at hn
        · cases hn
        · cases hn
          refine isBare_intercalate rfl fun t ht => ?_
          obtain ⟨x, hx, rfl⟩ := List.mem_map.1 ht
          exact (h x (List.dropLast_subset _ hx)).isBare
    simp only [String.toList_append]
    exact Text.isBare_append (Text.isBare_append rfl hbare) rfl

theorem brackets_ofImport {i : Import} (h : (Node.importing i).Worded) :
    (ofImport s i).brackets = [] := by
  unfold ofImport
  rw [brackets_framed]
  split
  · rfl
  · cases hline : importLine s i with
    | none => rfl
    | some line =>
      simp [Stroke.brackets, Stroke.drop, Scan.brackets_of_isBare (isBare_importLine h hline)]

/-- The line that opens a namespace opens its bracket. -/
theorem brackets_openNamespace {p : Package} (h : (Node.package p).Worded) :
    (openNamespace p).brackets = ['\x7b'] := by
  have hcalm : calm ("namespace ".toList ++ (p.name.joined "::").toList) = true :=
    Grammar.calm_append rfl (calm_joined rfl h)
  have hbare : isBare ("namespace ".toList ++ (p.name.joined "::").toList) = true :=
    Text.isBare_append rfl (isBare_joined rfl h)
  have htext : Scan.brackets .code ("namespace " ++ p.name.joined "::" ++ " \x7b").toList
      = ['\x7b'] := by
    rw [String.toList_append, String.toList_append, Scan.brackets_append,
      Scan.brackets_of_isBare hbare, (Scan.plain_of_calm hcalm).1]
    rfl
  rw [openNamespace, brackets_cons, Stroke.brackets, htext]
  rfl

/-- Package and imports open the bracket of the namespace, in C++. -/
theorem brackets_ofPrologue {u : CompilationUnit}
    (hpackage : ∀ p ∈ u.package?, (Node.package p).Worded)
    (himports : ∀ i ∈ u.imports, (Node.importing i).Worded) :
    (ofPrologue s u).brackets = if s.isCpp && u.package?.isSome then ['\x7b'] else [] := by
  have hfirst : Script.brackets (u.package?.toList.flatMap fun p => .copySpace :: ofPackage s p
      ++ if s.isCpp then [Stroke.skipLine, .skipBlankLines] else []) = [] := by
    refine brackets_flatMap fun p hp => ?_
    rw [brackets_append, brackets_cons, brackets_ofPackage (hpackage p (Option.mem_toList.1 hp)),
      brackets_ite rfl]
    rfl
  have hsecond : Script.brackets (u.imports.flatMap fun i =>
      .copySpace :: ofImport s i ++ if isDropped s i then [Stroke.skipLine] else []) = [] := by
    refine brackets_flatMap fun i hi => ?_
    rw [brackets_append, brackets_cons, brackets_ofImport (himports i hi), brackets_ite rfl]
    rfl
  have hbreak : Script.brackets (if lineOpen s u then [.copyBreak] else []) = [] := brackets_ite rfl
  unfold ofPrologue
  rw [brackets_append, brackets_append, brackets_append, hfirst, hsecond, brackets_ite rfl]
  cases hp : u.package? with
  | none => simpa using hbreak
  | some p =>
    cases s.isCpp with
    | false => simpa using hbreak
    | true => simp [Stroke.brackets, brackets_openNamespace (hpackage p hp)]

theorem brackets_ofEpilogue (s : Setting) (u : CompilationUnit) :
    (ofEpilogue s u).brackets = if s.isCpp && u.package?.isSome then ['\x7d'] else [] := by
  unfold ofEpilogue
  split <;> rfl

/-- A script between the start and the end of a file. -/
theorem Closed.file {u : CompilationUnit} (hpackage : ∀ p ∈ u.package?, (Node.package p).Worded)
    (himports : ∀ i ∈ u.imports, (Node.importing i).Worded) {r : Script} (h : Closed r) :
    Closed (ofPrologue s u ++ r ++ ofEpilogue s u) := by
  have hopen := brackets_ofPrologue (s := s) hpackage himports
  have hclose := brackets_ofEpilogue s u
  by_cases hspace : (s.isCpp && u.package?.isSome) = true
  · rw [if_pos hspace] at hopen hclose
    exact enclose rfl hopen h hclose
  · rw [if_neg hspace] at hopen hclose
    exact ((still hopen).append h).append (still hclose)

end Sources

end Script

/-! ## Nodes -/

theorem Java.Node.Worded.names {n : Node} (h : n.Worded) :
    ∀ x ∈ n.names, Spells .identifier x.text.toList := by
  unfold Node.names
  split
  · exact h
  · exact h
  · exact h
  · exact fun x hx => List.mem_singleton.1 hx ▸ h
  · nofun

/-- The strokes of a node's own write no brackets but those they are there for. -/
theorem Own.brackets_eq {s : Setting} {n : Node} {bs : List Char} {st : Stroke} (h : Own s n bs st)
    (hs : s.Bare) (hn : n.Worded) : st.brackets = bs := by
  cases h with
  | fixed | jump | trail => rfl
  | name hx ht =>
    refine Scan.brackets_of_isBare ?_
    rcases ht with rfl | rfl
    · exact (hn.names _ hx).isBare
    · rfl
  | literal => exact hn
  | primitive span k => exact Scan.brackets_of_isBare (hs.primitive k)
  | spelling t =>
    refine Stroke.brackets_write ?_
    unfold Script.className
    split
    · rename_i spelling hrenamed
      exact hs.renamed _ _ hrenamed
    · refine isBare_joined ?_ hn
      split <;> rfl
  | qualifier m =>
    refine Stroke.brackets_write ?_
    rw [String.toList_append]
    exact Text.isBare_append hs.qualifier rfl
  | path k => exact Stroke.brackets_write (isBare_joined rfl hn)
  | line hline => exact Stroke.brackets_write (Script.isBare_importLine hn hline)

theorem Setting.Bare.hand {s k : Setting} {n c : Node} (h : s.Bare) (hk : s.Hands n c k) : k.Bare :=
  ⟨hk.profile ▸ h.primitive, hk.profile ▸ h.renamed, hk.qualifier ▸ h.qualifier⟩

theorem Weaves.closed {s : Setting} {n : Node} {r : Script} {ns : List Node} (h : Weaves s n r ns)
    (hs : s.Bare) (hn : n.Worded)
    (hc : ∀ c ∈ ns, ∀ k, s.Hands n c k → (Script.ofNode k c).Closed) : r.Closed := by
  induction h with
  | nil => exact .nil
  | own hst => exact .cons (hst.brackets_eq hs hn) .nil
  | child hk => exact hc _ (List.mem_singleton.2 rfl) _ hk
  | append _ _ ih ih' =>
    obtain ⟨hns, hns'⟩ := List.forall_mem_append.1 hc
    exact (ih hns).append (ih' hns')
  | @pair o c st st' _ _ hpair hst hst' _ ih =>
    have hopen : Script.brackets [st] = [o] := by simp [hst.brackets_eq hs hn]
    have hclose : Script.brackets [st'] = [c] := by simp [hst'.brackets_eq hs hn]
    exact .enclose hpair hopen (ih hc) hclose
  | stop _ _ _ _ ih => exact ih (List.forall_mem_append.1 hc).1

/-- The brackets that the script of a node writes are nested. -/
theorem closed_ofNode {n : Node} (h : n.All Node.Worded) (hunit : ∀ u, n ≠ .unit u) {s : Setting}
    (hs : s.Bare) : (Script.ofNode s n).Closed := by
  refine ofNode_induction (M := fun s n => n.All Node.Worded → s.Bare → (Script.ofNode s n).Closed)
    (fun s n body hbody hweaves hc h hs => ?_) s n hunit h hs
  rw [hbody, Script.Closed, Script.brackets_framed]
  exact hweaves.closed hs h.self fun c hm k hk =>
    hc c hm k hk (h.child (Node.mem_children_of_visited hm)) (hs.hand hk)

end Transcribe
