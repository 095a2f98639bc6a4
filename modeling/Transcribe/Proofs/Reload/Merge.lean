/-
  Transcribe.Proofs.Reload.Merge — applying a profile's own fields as overrides.

  Overrides replace what they give and add to the tables. A profile that overrides made has every
  name the tables had before, so when all its fields are applied to the same base again, each table
  comes out as the profile has it, and no check refuses what it let pass before.
  - `Table.ext_get?`: a table is determined by its look-ups.
  - `Table.extend_entries`: extending a table by the entries of a larger one gives the larger one.
  - `Overrides.apply_ofProfile`: the fields of a profile that was made from a base make it again.
  - `Profile.Fits`: the widths are positive and fit into 64 bits.
-/

import Mathlib.Data.List.Basic
import Transcribe.Target.Document

namespace Transcribe.Target

/-! ## Tables -/

theorem lookup_eq_none {k : String} {l : List (String × String)} (h : ∀ e ∈ l, e.1 ≠ k) :
    l.lookup k = none := by
  rw [List.lookup_eq_none_iff]
  intro e he
  simpa using Ne.symm (h e he)

theorem lookup_eq_some_iff {k v : String} {l : List (String × String)} (h : KeysRise l) :
    l.lookup k = some v ↔ (k, v) ∈ l := by
  induction l with
  | nil => simp
  | cons d l ih =>
    obtain ⟨hd, hl⟩ := List.pairwise_cons.1 h
    rw [Table.lookup_cons_ite, List.mem_cons]
    by_cases hk : k = d.1
    · have hnot : (k, v) ∉ l := by
        intro hmem
        have hlt : d.1 < k := hd _ hmem
        exact String.lt_irrefl d.1 (hk ▸ hlt)
      rw [if_pos hk, Option.some.injEq]
      constructor
      · intro hv
        exact .inl (Prod.ext hk hv.symm)
      · rintro (rfl | hmem)
        · rfl
        · exact absurd hmem hnot
    · rw [if_neg hk, ih hl]
      constructor
      · exact .inr
      · rintro (rfl | hmem)
        · exact absurd rfl hk
        · exact hmem

namespace Table

theorem get?_eq_some_iff {t : Table} {k v : String} : t.get? k = some v ↔ (k, v) ∈ t.entries :=
  lookup_eq_some_iff t.rising

/-- Two tables with the same look-ups are the same. -/
theorem ext_get? {t u : Table} (h : ∀ k, t.get? k = u.get? k) : t = u := by
  have hnodup : ∀ w : Table, w.entries.Nodup := by
    intro w
    refine List.Pairwise.imp (fun {a b} hlt heq => ?_) w.rising
    rw [heq] at hlt
    exact String.lt_irrefl _ hlt
  have hperm : t.entries.Perm u.entries := by
    rw [List.perm_ext_iff_of_nodup (hnodup t) (hnodup u)]
    rintro ⟨k, v⟩
    rw [← get?_eq_some_iff, ← get?_eq_some_iff, h]
  refine Table.ext (hperm.eq_of_pairwise ?_ t.rising u.rising)
  intro a b _ _ hab hba
  exact absurd (String.lt_trans hab hba) (String.lt_irrefl _)

/-- What a look-up finds in a table extended by the entries of another. -/
theorem get?_extend (t : Table) {more : List (String × String)} (h : KeysRise more) (k : String) :
    (t.extend more).get? k = (more.lookup k).or (t.get? k) := by
  induction more generalizing t with
  | nil => rfl
  | cons e more ih =>
    obtain ⟨he, hmore⟩ := List.pairwise_cons.1 h
    show ((t.insert e.1 e.2).extend more).get? k = _
    rw [ih _ hmore, get?_insert, lookup_cons_ite]
    by_cases hk : k = e.1
    · have hnone : more.lookup k = none := lookup_eq_none fun d hd heq => by
        have hlt := he d hd
        rw [heq, hk] at hlt
        exact String.lt_irrefl _ hlt
      rw [hnone, if_pos hk, if_pos hk, Option.none_or, Option.some_or]
    · rw [if_neg hk, if_neg hk]

/-- A table that is extended keeps its names. -/
theorem isSome_get?_extend {t : Table} (more : List (String × String)) {k : String}
    (h : (t.get? k).isSome) : ((t.extend more).get? k).isSome := by
  induction more generalizing t with
  | nil => exact h
  | cons e more ih =>
    show (((t.insert e.1 e.2).extend more).get? k).isSome
    apply ih
    rw [get?_insert]
    split
    · rfl
    · exact h

/-- Extending a table by the entries of one that has all its names gives the other. -/
theorem extend_entries {t u : Table} (h : ∀ k, (t.get? k).isSome → (u.get? k).isSome) :
    t.extend u.entries = u := by
  apply ext_get?
  intro k
  rw [get?_extend t u.rising]
  show (u.get? k).or (t.get? k) = u.get? k
  cases hu : u.get? k with
  | some v => rfl
  | none =>
    rw [Option.none_or]
    cases ht : t.get? k with
    | none => rfl
    | some v =>
      have := h k (by rw [ht]; rfl)
      rw [hu] at this
      cases this

end Table

/-! ## Overrides -/

namespace Overrides

variable {o : Overrides} {base p : Profile}

theorem fault?_eq_none_iff : o.fault? base = none ↔
    (∀ l ∈ o.language?, l = base.language) ∧ o.preferredIndent? ≠ some 0 ∧
      o.sourceTabStop? ≠ some 0 := by
  have hlength : fault?.lengthFault? o = none ↔
      o.preferredIndent? ≠ some 0 ∧ o.sourceTabStop? ≠ some 0 := by
    unfold fault?.lengthFault?
    split
    · simp_all
    · split <;> simp_all
  unfold fault?
  cases o.language? with
  | none => simpa using hlength
  | some l =>
    by_cases hl : l = base.language
    · simpa [hl] using hlength
    · simp [hl]

/-- What overrides that are accepted make of a profile. -/
theorem apply_eq_ok_iff : o.apply base = .ok p ↔
    ((∀ l ∈ o.language?, l = base.language) ∧ o.preferredIndent? ≠ some 0 ∧
      o.sourceTabStop? ≠ some 0) ∧
    p.language = base.language ∧
    p.pointerStyle = o.pointerStyle?.getD base.pointerStyle ∧
    p.preferredIndent = o.preferredIndent?.getD base.preferredIndent ∧
    p.sourceTabStop = o.sourceTabStop?.getD base.sourceTabStop ∧
    p.expandTabs = o.expandTabs?.getD base.expandTabs ∧
    p.primitiveTypes = base.primitiveTypes.extend o.primitiveTypes ∧
    p.typeRenames = base.typeRenames.extend o.typeRenames := by
  rw [← fault?_eq_none_iff, apply]
  cases o.fault? base with
  | some fault => simp
  | none =>
    simp only [Except.ok.injEq, true_and]
    constructor
    · rintro rfl
      exact ⟨rfl, rfl, rfl, rfl, rfl, rfl, rfl⟩
    · rintro ⟨h1, h2, h3, h4, h5, h6, h7⟩
      cases p
      simp_all

def Short (o : Overrides) : Prop :=
  (∀ n ∈ o.preferredIndent?, n < Nat.pow 2 64) ∧ ∀ n ∈ o.sourceTabStop?, n < Nat.pow 2 64

theorem short_empty : Short {} := ⟨by rintro n ⟨⟩, by rintro n ⟨⟩⟩

end Overrides

structure Profile.Fits (p : Profile) : Prop where
  indent_pos : 1 ≤ p.preferredIndent
  tabStop_pos : 1 ≤ p.sourceTabStop
  indent_lt : p.preferredIndent < Nat.pow 2 64
  tabStop_lt : p.sourceTabStop < Nat.pow 2 64

theorem Profile.fits_default (l : Language) : (default l).Fits := by
  cases l <;> constructor <;> decide

namespace Overrides

variable {o : Overrides} {base p : Profile}

theorem fits_of_apply (h : o.apply base = .ok p) (ho : o.Short) (hbase : base.Fits) : p.Fits := by
  obtain ⟨⟨-, hindent, htab⟩, -, -, hindent', htab', -⟩ := apply_eq_ok_iff.1 h
  obtain ⟨hshort, hshort'⟩ := ho
  constructor
  · rw [hindent']
    cases hn : o.preferredIndent? with
    | none => exact hbase.indent_pos
    | some n =>
      rw [hn] at hindent
      exact Nat.pos_of_ne_zero fun h0 => hindent (congrArg some h0)
  · rw [htab']
    cases hn : o.sourceTabStop? with
    | none => exact hbase.tabStop_pos
    | some n =>
      rw [hn] at htab
      exact Nat.pos_of_ne_zero fun h0 => htab (congrArg some h0)
  · rw [hindent']
    cases hn : o.preferredIndent? with
    | none => exact hbase.indent_lt
    | some n => exact hshort n hn
  · rw [htab']
    cases hn : o.sourceTabStop? with
    | none => exact hbase.tabStop_lt
    | some n => exact hshort' n hn

/-- The fields of a profile that overrides made from a base make it from that base again. -/
theorem apply_ofProfile (h : o.apply base = .ok p) (hp : p.Fits) :
    (ofProfile p).apply base = .ok p := by
  obtain ⟨-, hlanguage, -, -, -, -, hprimitive, hrenames⟩ := apply_eq_ok_iff.1 h
  have hindent := hp.indent_pos
  have htab := hp.tabStop_pos
  refine apply_eq_ok_iff.2 ⟨⟨?_, ?_, ?_⟩, hlanguage, rfl, rfl, rfl, rfl, ?_, ?_⟩
  · intro l hl
    exact (Option.some.inj hl).symm.trans hlanguage
  · intro h0
    have : p.preferredIndent = 0 := Option.some.inj h0
    omega
  · intro h0
    have : p.sourceTabStop = 0 := Option.some.inj h0
    omega
  · refine (Table.extend_entries fun k hk => ?_).symm
    rw [hprimitive]
    exact Table.isSome_get?_extend _ hk
  · refine (Table.extend_entries fun k hk => ?_).symm
    rw [hrenames]
    exact Table.isSome_get?_extend _ hk

end Overrides

/-! ## What is read -/

namespace Format

variable {α : Type} (f : Format α) {o o' : Overrides}

theorem lt_of_length? {a : α} {n : Nat} (h : f.length? a = some (some n)) : n < Nat.pow 2 64 := by
  unfold length? optional at h
  split at h
  · cases h
  · obtain ⟨m, hm, hn⟩ := Option.map_eq_some_iff.1 h
    obtain ⟨m', -, hlt⟩ := Option.bind_eq_some_iff.1 hm
    split at hlt
    · rename_i hlt'
      rw [Option.some.inj hlt, Option.some.inj hn] at hlt'
      exact hlt'
    · cases hlt

/-- Setting a field keeps widths within 64 bits. -/
theorem short_of_set? {name : String} {a : α} (h : f.set? o name a = some o') (ho : o.Short) :
    o'.Short := by
  unfold set? at h
  split at h
  · obtain ⟨v, -, rfl⟩ := Option.map_eq_some_iff.1 h
    exact ho
  · obtain ⟨v, -, rfl⟩ := Option.map_eq_some_iff.1 h
    exact ho
  · obtain ⟨v, hv, rfl⟩ := Option.map_eq_some_iff.1 h
    refine ⟨fun n hn => ?_, ho.2⟩
    obtain rfl : v = some n := hn
    exact f.lt_of_length? hv
  · obtain ⟨v, hv, rfl⟩ := Option.map_eq_some_iff.1 h
    refine ⟨ho.1, fun n hn => ?_⟩
    obtain rfl : v = some n := hn
    exact f.lt_of_length? hv
  · obtain ⟨v, -, rfl⟩ := Option.map_eq_some_iff.1 h
    exact ho
  · obtain ⟨v, -, rfl⟩ := Option.map_eq_some_iff.1 h
    exact ho
  · obtain ⟨v, -, rfl⟩ := Option.map_eq_some_iff.1 h
    exact ho
  · cases h

theorem short_of_setAll? {fields : List (String × α)} (h : f.setAll? o fields = some o')
    (ho : o.Short) : o'.Short := by
  induction fields generalizing o with
  | nil =>
    obtain rfl := Option.some.inj h
    exact ho
  | cons e fields ih =>
    rw [setAll?, List.foldlM_cons] at h
    obtain ⟨m, hm, hrest⟩ := Option.bind_eq_some_iff.1 h
    exact ih hrest (f.short_of_set? hm ho)

theorem short_of_overrides? {a : α} (h : f.overrides? a = some o) : o.Short := by
  unfold overrides? at h
  split at h
  · split at h
    · exact f.short_of_setAll? h Overrides.short_empty
    · cases h
  · split at h
    · split at h
      · exact f.short_of_setAll? h Overrides.short_empty
      · cases h
    · cases h

end Format

namespace Profile

variable {l : Language} {p : Profile} {text : String}

theorem exists_of_ofOverrides {o? : Option Overrides} (h : ofOverrides l o? = .ok p) :
    ∃ o, o? = some o ∧ o.apply (default l) = .ok p := by
  cases o? with
  | none => cases h
  | some o => exact ⟨o, rfl, h⟩

/-- A profile that was read is what overrides make of the language's own. -/
theorem exists_overrides (h : ofJson l text = .ok p ∨ ofYaml l text = .ok p) :
    ∃ o : Overrides, o.Short ∧ o.apply (default l) = .ok p := by
  rcases h with h | h
  · obtain ⟨o, ho, happly⟩ := exists_of_ofOverrides h
    obtain ⟨j, -, ho⟩ := Option.bind_eq_some_iff.1 ho
    exact ⟨o, Format.json.short_of_overrides? ho, happly⟩
  · unfold ofYaml at h
    split at h
    · exact ⟨{}, Overrides.short_empty, h⟩
    · obtain ⟨o, ho, happly⟩ := exists_of_ofOverrides h
      obtain ⟨y, -, ho⟩ := Option.bind_eq_some_iff.1 ho
      exact ⟨o, Format.yaml.short_of_overrides? ho, happly⟩

end Profile

end Transcribe.Target
