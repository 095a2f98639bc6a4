/-
  Transcribe.Target.Table — spellings by name, sorted by name.

  The entries stand in strictly rising order of their names, so two tables with the same
  look-ups are the same table.
  - `get?_insert`: what a look-up finds after an insertion.
  - `extend`: the later entries win.
-/

namespace Transcribe.Target

/-- Sets `k` to `v` in a list sorted by key. -/
def insertSorted (k v : String) : List (String × String) → List (String × String)
  | [] => [(k, v)]
  | (k', v') :: rest =>
    if k < k' then (k, v) :: (k', v') :: rest
    else if k = k' then (k, v) :: rest
    else (k', v') :: insertSorted k v rest

def KeysRise (entries : List (String × String)) : Prop := entries.Pairwise fun a b => a.1 < b.1

theorem mem_insertSorted {k v : String} {e : String × String} {l : List (String × String)}
    (h : e ∈ insertSorted k v l) : e = (k, v) ∨ e ∈ l := by
  induction l with
  | nil => exact .inl (List.mem_singleton.1 h)
  | cons d l ih =>
    rw [insertSorted] at h
    split at h
    · exact List.mem_cons.1 h
    · split at h
      · exact (List.mem_cons.1 h).imp id (List.mem_cons_of_mem d)
      · rcases List.mem_cons.1 h with rfl | h
        · exact .inr List.mem_cons_self
        · exact (ih h).imp id (List.mem_cons_of_mem d)

theorem keysRise_insertSorted (k v : String) {l : List (String × String)} (h : KeysRise l) :
    KeysRise (insertSorted k v l) := by
  induction l with
  | nil => exact List.pairwise_singleton _ _
  | cons d l ih =>
    obtain ⟨hd, hl⟩ := List.pairwise_cons.1 h
    rw [insertSorted]
    split
    next lt =>
      refine List.pairwise_cons.2 ⟨fun e he => ?_, h⟩
      rcases List.mem_cons.1 he with rfl | he
      · exact lt
      · exact String.lt_trans lt (hd e he)
    next nlt =>
      split
      next eq => exact List.pairwise_cons.2 ⟨fun e he => eq ▸ hd e he, hl⟩
      next ne =>
        refine List.pairwise_cons.2 ⟨fun e he => ?_, ih hl⟩
        rcases mem_insertSorted he with rfl | he
        · exact Classical.byContradiction fun nlt' =>
            ne (String.le_antisymm (String.not_lt.1 nlt') (String.not_lt.1 nlt))
        · exact hd e he

structure Table where
  entries : List (String × String)
  rising : KeysRise entries

namespace Table

def empty : Table := ⟨[], List.Pairwise.nil⟩

def insert (t : Table) (k v : String) : Table :=
  ⟨insertSorted k v t.entries, keysRise_insertSorted k v t.rising⟩

def extend (t : Table) (more : List (String × String)) : Table :=
  more.foldl (fun t e => t.insert e.1 e.2) t

def ofList (entries : List (String × String)) : Table := empty.extend entries

def get? (t : Table) (k : String) : Option String := t.entries.lookup k

@[ext] theorem ext {a b : Table} (h : a.entries = b.entries) : a = b := by
  cases a; cases b; cases h; rfl

theorem lookup_cons_ite (k : String) (d : String × String) (l : List (String × String)) :
    (d :: l).lookup k = if k = d.1 then some d.2 else l.lookup k := by
  by_cases h : k = d.1
  · rw [List.lookup_cons, if_pos h, h, beq_self_eq_true]
  · rw [List.lookup_cons, beq_false_of_ne h, if_neg h]

theorem lookup_insertSorted (k v k' : String) (l : List (String × String)) :
    (insertSorted k v l).lookup k' = if k' = k then some v else l.lookup k' := by
  induction l with
  | nil => simp [insertSorted]
  | cons d l ih => simp only [insertSorted]; grind [lookup_cons_ite]

/-- A look-up finds what was put in last under its name. -/
theorem get?_insert (t : Table) (k v k' : String) :
    (t.insert k v).get? k' = if k' = k then some v else t.get? k' :=
  lookup_insertSorted k v k' t.entries

end Table

end Transcribe.Target
