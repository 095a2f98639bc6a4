/-
  Transcribe.Proofs.Total.Finish — a match of the grammar is always finished.

  A rule is higher than the rules that may be tried at the place where it is tried itself, so at one
  place the search goes down from rule to rule, and it climbs again only behind a character that was
  taken. Repetitions take a character each time. So the nodes on a path of the search, one unit of
  fuel each, are bounded by the height and the size of the rules and by the length of the text.

  Rules with such heights are `Grounded`. Which rules an expression may try before it has moved on
  (`heads`) and whether its repetitions move on (`loopsEat`) are read off the expression, so both
  are checked on the grammar; the height of a rule is computed by following its heads (`heightTo`).
  - `run_finishes`: this much fuel is enough.
  - `rule_finishes`: every text has this much fuel.
-/

import Transcribe.Proofs.TokenEnds
import Transcribe.Java.Rule

namespace Transcribe.Grammar

variable {ρ : Type}

namespace Peg

/-- The rules that may be tried before the expression has moved on, if the rules of `f` eat. -/
def heads (f : ρ → Bool) : Peg ρ → List ρ
  | .rule r => [r]
  | .seq a b => if a.eats f then a.heads f else a.heads f ++ b.heads f
  | .alt a b => a.heads f ++ b.heads f
  | .opt a | .many a | .ahead a | .notAhead a => a.heads f
  | _ => []

def loopsEat (f : ρ → Bool) : Peg ρ → Bool
  | .many a => a.eats f && a.loopsEat f
  | .seq a b | .alt a b => a.loopsEat f && b.loopsEat f
  | .opt a | .ahead a | .notAhead a => a.loopsEat f
  | _ => true

end Peg

/-- Rules without left recursion: a rule is higher than the rules that may be tried before it has
moved on, and no repetition stays where it is. -/
structure Rules.Grounded (g : Rules ρ) (f : ρ → Bool) (height : ρ → Nat) (size top : Nat) :
    Prop where
  eats : ∀ r, f r = true → (g.body r).eats f = true
  loops : ∀ r, (g.body r).loopsEat f = true
  heads : ∀ r, ∀ q ∈ (g.body r).heads f, height q < height r
  size : ∀ r, (g.body r).size ≤ size
  top : ∀ r, height r < top

theorem Cursor.Reaches.length_le {c d : Cursor} {w : List Char} (h : c.Reaches w d) :
    d.rest.length ≤ c.rest.length := by
  rw [h.rest_eq, List.length_append]
  omega

theorem Cursor.Reaches.length_lt {c d : Cursor} {w : List Char} (h : c.Reaches w d)
    (hlt : c.offset < d.offset) : d.rest.length < c.rest.length := by
  have hne : w ≠ [] := by
    rintro rfl
    rw [h.offset_eq] at hlt
    exact absurd hlt (Nat.lt_irrefl _)
  have := List.length_pos_iff.2 hne
  rw [h.rest_eq, List.length_append]
  omega

section Finishes

variable {g : Rules ρ} {f : ρ → Bool} {height : ρ → Nat} {size top : Nat}

def need (size top len k : Nat) (e : Peg ρ) : Nat := (size * top + 1) * len + size * k + e.size

theorem Peg.size_pos (e : Peg ρ) : 0 < e.size := by
  cases e <;> simp only [Peg.size] <;> omega

/-- Behind a character that was taken any rule may be tried. -/
theorem need_lt (size top k : Nat) {len len' : Nat} (h : len' < len) (e : Peg ρ) :
    need size top len' top e + 1 ≤ need size top len k e := by
  have hlen : (size * top + 1) * (len' + 1) ≤ (size * top + 1) * len := Nat.mul_le_mul_left _ h
  rw [Nat.mul_add, Nat.mul_one] at hlen
  unfold need
  omega

theorem need_mono (size top k : Nat) {len len' : Nat} (h : len' ≤ len) (e : Peg ρ) :
    need size top len' k e ≤ need size top len k e := by
  have hlen : (size * top + 1) * len' ≤ (size * top + 1) * len := Nat.mul_le_mul_left _ h
  unfold need
  omega

/-- A part of an expression needs less than all of it. -/
theorem need_part {len k n : Nat} {x e : Peg ρ} (hsize : x.size < e.size)
    (h : need size top len k e ≤ n + 1) : need size top len k x ≤ n := by
  unfold need at *
  omega

/-- A rule is lower than the expression it is tried for. -/
theorem need_body (top len : Nat) {k k' : Nat} (r : ρ) {e : Peg ρ} (hk : k' < k)
    (he : e.size ≤ size) :
    need size top len k' e + 1 ≤ need size top len k (.rule r) := by
  have hheight : size * (k' + 1) ≤ size * k := Nat.mul_le_mul_left _ hk
  rw [Nat.mul_add, Nat.mul_one] at hheight
  unfold need
  simp only [Peg.size]
  omega

def RunFinishes (g : Rules ρ) (f : ρ → Bool) (height : ρ → Nat) (size top n : Nat) : Prop :=
  ∀ {e m c a k}, (∀ q ∈ e.heads f, height q < k) → e.loopsEat f = true →
    need size top c.rest.length k e ≤ n → ∃ out, run g n e m c a = some out

def MoreFinishes (g : Rules ρ) (f : ρ → Bool) (size top n : Nat) : Prop :=
  ∀ {x m c a}, x.eats f = true → x.loopsEat f = true →
    need size top c.rest.length top x + 1 ≤ n → ∃ out, more g n x m c a = some out

variable (hg : g.Grounded f height size top)
include hg

theorem runFinishes_succ {n : Nat} (ihRun : RunFinishes g f height size top n)
    (ihMore : MoreFinishes g f size top n) : RunFinishes g f height size top (n + 1) := by
  intro e m c a k hheads hloops hneed
  cases e with
  | word | startOfText | endOfText => exact ⟨_, rfl⟩
  | words ws =>
    simp only [run]
    split
    · exact ⟨_, rfl⟩
    · exact ⟨_, rfl⟩
  | one p =>
    simp only [run]
    split
    · exact ⟨_, rfl⟩
    · split
      · exact ⟨_, rfl⟩
      · exact ⟨_, rfl⟩
  | rule r =>
    have hr : height r < k := hheads r (List.mem_singleton.2 rfl)
    have hbody := need_body top c.rest.length r hr (hg.size r)
    obtain ⟨out, hout⟩ := ihRun (m := g.inner r m) (c := c) (a := a) (hg.heads r) (hg.loops r)
      (by omega)
    unfold Rules.inner at hout
    simp only [run, hout]
    cases out with
    | failed => exact ⟨_, rfl⟩
    | matched => exact ⟨_, rfl⟩
  | seq x y =>
    simp only [Peg.loopsEat, Bool.and_eq_true] at hloops
    have hneedx := need_part (x := x) (by simp only [Peg.size]; omega) hneed
    have hneedy := need_part (x := y) (by simp only [Peg.size]; omega) hneed
    have hheadsx : ∀ q ∈ x.heads f, height q < k := by
      intro q hq
      apply hheads
      rw [Peg.heads]
      split
      · exact hq
      · exact List.mem_append_left _ hq
    obtain ⟨out, hx⟩ := ihRun (m := m) (a := a) hheadsx hloops.1 hneedx
    simp only [run, hx]
    cases out with
    | failed => exact ⟨_, rfl⟩
    | matched before mid a =>
      have htakes := takes_of_run hx
      obtain ⟨u, hu⟩ := htakes.reaches
      obtain ⟨v, hv⟩ := m.gap_reaches mid
      have hy : ∃ out, run g n y m (m.gap mid).2 a = some out := by
        by_cases hlt : (m.gap mid).2.rest.length < c.rest.length
        · have := need_lt size top k hlt y
          exact ihRun (fun q _ => hg.top q) hloops.2 (by omega)
        · -- Neither the first part nor the gap took a character.
          have hle := hv.length_le
          have hstay : x.eats f = false := by
            rw [Bool.eq_false_iff]
            intro heats
            exact hlt (Nat.lt_of_le_of_lt hle (hu.length_lt (htakes.lt_of_eats hg.eats heats)))
          have hheadsy : ∀ q ∈ y.heads f, height q < k := by
            intro q hq
            apply hheads
            rw [Peg.heads, if_neg (by simp [hstay])]
            exact List.mem_append_right _ hq
          have := need_mono size top k (Nat.le_trans hle hu.length_le) y
          exact ihRun hheadsy hloops.2 (by omega)
      obtain ⟨out, hy⟩ := hy
      simp only [hy]
      cases out with
      | failed => exact ⟨_, rfl⟩
      | matched => exact ⟨_, rfl⟩
  | alt x y =>
    simp only [Peg.loopsEat, Bool.and_eq_true] at hloops
    simp only [Peg.heads, List.forall_mem_append] at hheads
    have hneedx := need_part (x := x) (by simp only [Peg.size]; omega) hneed
    have hneedy := need_part (x := y) (by simp only [Peg.size]; omega) hneed
    obtain ⟨out, hx⟩ := ihRun (m := m) (a := a) hheads.1 hloops.1 hneedx
    simp only [run, hx]
    cases out with
    | failed => exact ihRun hheads.2 hloops.2 hneedy
    | matched => exact ⟨_, rfl⟩
  | opt x =>
    have hneedx := need_part (x := x) (Nat.lt_succ_self _) hneed
    obtain ⟨out, hx⟩ := ihRun (e := x) (m := m) (a := a) hheads hloops hneedx
    simp only [run, hx]
    cases out with
    | failed => exact ⟨_, rfl⟩
    | matched => exact ⟨_, rfl⟩
  | many x =>
    simp only [Peg.loopsEat, Bool.and_eq_true] at hloops
    have hneedx := need_part (x := x) (Nat.lt_succ_self _) hneed
    obtain ⟨out, hx⟩ := ihRun (e := x) (m := m) (a := a) hheads hloops.2 hneedx
    simp only [run, hx]
    cases out with
    | failed => exact ⟨_, rfl⟩
    | matched first mid a =>
      have htakes := takes_of_run hx
      obtain ⟨u, hu⟩ := htakes.reaches
      have hlt := hu.length_lt (htakes.lt_of_eats hg.eats hloops.1)
      have := need_lt size top k hlt x
      obtain ⟨out, hmore⟩ := ihMore (m := m) (c := mid) (a := a) hloops.1 hloops.2 (by omega)
      simp only [hmore]
      exact ⟨_, rfl⟩
  | ahead x =>
    have hneedx := need_part (x := x) (Nat.lt_succ_self _) hneed
    obtain ⟨out, hx⟩ := ihRun (e := x) (m := { m with look := m.look.ahead }) (a := a) hheads
      hloops hneedx
    simp only [run, hx]
    cases out with
    | failed => exact ⟨_, rfl⟩
    | matched => exact ⟨_, rfl⟩
  | notAhead x =>
    have hneedx := need_part (x := x) (Nat.lt_succ_self _) hneed
    obtain ⟨out, hx⟩ := ihRun (e := x) (m := { m with look := m.look.notAhead }) (a := a) hheads
      hloops hneedx
    simp only [run, hx]
    cases out with
    | failed => exact ⟨_, rfl⟩
    | matched => exact ⟨_, rfl⟩

theorem moreFinishes_succ {n : Nat} (ihRun : RunFinishes g f height size top n)
    (ihMore : MoreFinishes g f size top n) : MoreFinishes g f size top (n + 1) := by
  intro x m c a heats hloops hneed
  obtain ⟨v, hv⟩ := m.gap_reaches c
  have hgap := need_mono size top top hv.length_le x
  obtain ⟨out, hx⟩ := ihRun (m := m) (c := (m.gap c).2) (a := a) (fun q _ => hg.top q) hloops
    (by omega)
  simp only [more, hx]
  cases out with
  | failed => exact ⟨_, rfl⟩
  | matched trees mid a =>
    have htakes := takes_of_run hx
    obtain ⟨u, hu⟩ := htakes.reaches
    have hlt := hu.length_lt (htakes.lt_of_eats hg.eats heats)
    have := need_lt size top top hlt x
    obtain ⟨out, hmore⟩ := ihMore (m := m) (c := mid) (a := a) heats hloops (by omega)
    simp only [hmore]
    exact ⟨_, rfl⟩

theorem runFinishes_and_moreFinishes (n : Nat) :
    RunFinishes g f height size top n ∧ MoreFinishes g f size top n := by
  induction n with
  | zero =>
    refine ⟨fun {e} {m} {c} {a} {k} _ _ hneed => ?_, fun _ _ hneed => ?_⟩
    · have := e.size_pos
      unfold need at hneed
      omega
    · omega
  | succ n ih => exact ⟨runFinishes_succ hg ih.1 ih.2, moreFinishes_succ hg ih.1 ih.2⟩

/-- With as much fuel as it needs, a run finishes. -/
theorem run_finishes {n k : Nat} {e : Peg ρ} {m : Mode} {c : Cursor} {a : Attempts ρ}
    (hheads : ∀ q ∈ e.heads f, height q < k) (hloops : e.loopsEat f = true)
    (hneed : need size top c.rest.length k e ≤ n) : ∃ out, run g n e m c a = some out :=
  (runFinishes_and_moreFinishes hg n).1 hheads hloops hneed

/-- The fuel of a text is enough wherever in it a rule is tried, if the rules are not too high. -/
theorem rule_finishes (hweight : size * top + 1 ≤ g.weight) (r : ρ) {n : Nat} {m : Mode}
    {c : Cursor} {a : Attempts ρ} (hn : g.fuel c.rest.length ≤ n) :
    ∃ out, run g n (.rule r) m c a = some out := by
  refine run_finishes hg (k := top) (fun q _ => hg.top q) rfl ?_
  have hfuel : (size * top + 1) * (c.rest.length + 2) ≤ g.fuel c.rest.length :=
    Nat.mul_le_mul_right _ hweight
  rw [Nat.mul_add] at hfuel
  simp only [need, Peg.size]
  omega

end Finishes

end Transcribe.Grammar

namespace Transcribe.Java.Rule

open Grammar

def eats (r : Rule) : Bool := r != .endOfInput && r != .compilationUnit

/-- How many rules may be tried one for the other at one place, from this one on; `n` at most. -/
def heightTo : Nat → Rule → Nat
  | 0, _ => 0
  | n + 1, r => ((r.body.heads eats).map (heightTo n)).foldr max 0 + 1

theorem grounded : grammar.Grounded eats (heightTo 10) 72 10 := by
  have hall : ∀ r ∈ all, (eats r = true → r.body.eats eats = true) ∧ r.body.loopsEat eats = true ∧
      (∀ q ∈ r.body.heads eats, heightTo 10 q < heightTo 10 r) ∧ r.body.size ≤ 72 ∧
      heightTo 10 r < 10 := by decide +kernel
  constructor
  · exact fun r => (hall r r.mem_all).1
  · exact fun r => (hall r r.mem_all).2.1
  · exact fun r => (hall r r.mem_all).2.2.1
  · exact fun r => (hall r r.mem_all).2.2.2.1
  · exact fun r => (hall r r.mem_all).2.2.2.2

/-- A search for a rule of the grammar is always finished. -/
theorem run_grammar (r : Rule) {n : Nat} {m : Mode} {c : Cursor} {a : Attempts Rule}
    (hn : grammar.fuel c.rest.length ≤ n) : ∃ out, run grammar n (.rule r) m c a = some out :=
  rule_finishes grounded (by decide) r hn

theorem match?_grammar (r : Rule) (cs : List Char) : ∃ out, grammar.match? r cs = some out :=
  run_grammar r (Nat.le_refl _)

end Transcribe.Java.Rule
