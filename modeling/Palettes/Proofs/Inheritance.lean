import Mathlib.Data.List.Chain
import Mathlib.Data.List.Nodup
import Mathlib.Data.List.Perm.Subperm
import Mathlib.Logic.Relation
import Palettes.Prepared

/-!
The graph of a prepared table. Its edges are the stored parents, and an edge
may lead to a name that is not declared. A palette is grounded if everything it
reaches is declared and nothing it reaches lies on a cycle; diamonds and
parents named twice do no harm.
-/
namespace Palettes.PreparedTable

variable {t : PreparedTable} {name child parent top : String} {lineage : List String}

/-- One palette names another as a parent. -/
def Extends (t : PreparedTable) (child parent : String) : Prop :=
  ∃ p, t.get? child = some p ∧ parent ∈ p.parents

/-- Following parents, in any number of steps, leads from one palette to another. -/
def Reaches (t : PreparedTable) : String → String → Prop := Relation.ReflTransGen t.Extends

/-- Following parents leads a palette back to itself. -/
def OnCycle (t : PreparedTable) (name : String) : Prop := Relation.TransGen t.Extends name name

/-- All that a palette reaches, itself included, is declared and on no cycle. -/
structure Grounded (t : PreparedTable) (name : String) : Prop where
  declared : ∀ q, t.Reaches name q → q ∈ t.names
  acyclic : ∀ q, t.Reaches name q → ¬ t.OnCycle q

theorem Extends.mem_names (h : t.Extends child parent) : child ∈ t.names := by
  obtain ⟨p, hp, -⟩ := h
  exact (t.mem_names_iff child).mpr ⟨p, hp⟩

theorem OnCycle.mem_names (h : t.OnCycle name) : name ∈ t.names := by
  obtain ⟨_, hfirst, -⟩ := (Relation.TransGen.head'_iff).mp h
  exact hfirst.mem_names

/-- What is grounded follows from the parents alone: a cycle through the
palette itself would be met again at one of them. -/
theorem grounded_of_parents {p : PreparedPalette} (hp : t.get? name = some p)
    (h : ∀ q ∈ p.parents, t.Grounded q) : t.Grounded name := by
  have hnext {q : String} (hq : t.Extends name q) : t.Grounded q := by
    obtain ⟨p', hp', hmem⟩ := hq
    obtain rfl : p = p' := Option.some.inj (hp.symm.trans hp')
    exact h q hmem
  constructor
  · intro q hq
    obtain rfl | ⟨a, hfirst, hrest⟩ := (Relation.ReflTransGen.cases_head_iff).mp hq
    · exact (t.mem_names_iff name).mpr ⟨p, hp⟩
    · exact (hnext hfirst).declared q hrest
  · intro q hq hcycle
    obtain rfl | ⟨a, hfirst, hrest⟩ := (Relation.ReflTransGen.cases_head_iff).mp hq
    · obtain ⟨a, hfirst, hback⟩ := (Relation.TransGen.head'_iff).mp hcycle
      exact (hnext hfirst).acyclic name hback hcycle
    · exact (hnext hfirst).acyclic q hrest hcycle

/-- All declared palettes are grounded if no parent that is reached is missing
and there is no cycle at all. -/
theorem forall_grounded_iff :
    (∀ p ∈ t.names, t.Grounded p) ↔
      (∀ p ∈ t.names, ∀ q, t.Reaches p q → q ∈ t.names) ∧ ∀ q, ¬ t.OnCycle q := by
  constructor
  · intro h
    exact ⟨fun p hp => (h p hp).declared,
      fun q hq => (h q hq.mem_names).acyclic q .refl hq⟩
  · rintro ⟨hdeclared, hacyclic⟩ p hp
    exact ⟨hdeclared p hp, fun q _ => hacyclic q⟩

/-! ## Lineages -/

/-- A lineage leads from a palette told in its own right, parent by parent, to
the palette that is told last. -/
inductive Lineage (t : PreparedTable) (top : String) : List String → String → Prop
  | start : Lineage t top [top] top
  | step {lineage : List String} {child parent : String} :
    Lineage t top lineage child → t.Extends child parent →
      Lineage t top (lineage ++ [parent]) parent

namespace Lineage

theorem getLast? (h : t.Lineage top lineage name) : lineage.getLast? = some name := by
  cases h <;> simp

theorem head? (h : t.Lineage top lineage name) : lineage.head? = some top := by
  induction h with
  | start => rfl
  | step h _ ih => simp [ih]

theorem reaches (h : t.Lineage top lineage name) : t.Reaches top name := by
  induction h with
  | start => exact .refl
  | step _ hext ih => exact ih.tail hext

theorem isChain (h : t.Lineage top lineage name) : lineage.IsChain t.Extends := by
  induction h with
  | start => simp
  | step h hext ih =>
    refine List.IsChain.append ih (by simp) ?_
    intro a ha b hb
    rw [h.getLast?] at ha
    simp only [List.head?_cons, Option.mem_def, Option.some.injEq] at ha hb
    rwa [← ha, ← hb]

end Lineage

/-- Names as they stand on a lineage while cycles are detected. -/
structure Distinct (t : PreparedTable) (lineage : List String) : Prop where
  nodup : lineage.Nodup
  declared : lineage ⊆ t.names

namespace Distinct

theorem singleton (h : name ∈ t.names) : t.Distinct [name] where
  nodup := List.nodup_singleton name
  declared := by simpa using h

theorem append (h : t.Distinct lineage) (hname : name ∈ t.names) (hnew : name ∉ lineage) :
    t.Distinct (lineage ++ [name]) where
  nodup := by
    rw [← List.concat_eq_append]
    exact List.Nodup.concat hnew h.nodup
  declared := List.append_subset.mpr ⟨h.declared, by simpa using hname⟩

/-- There are at most as many of them as the table has palettes. -/
theorem length_le (h : t.Distinct lineage) : lineage.length ≤ t.size := by
  rw [← t.length_names]
  exact (h.nodup.subperm h.declared).length_le

end Distinct

/-! ## Two tables -/

/-- A diamond with one of its sides named twice. -/
def diamond : PaletteDefs := .ofList
  [("tip extends left extends right extends left", .ofList [("main", ["id"])]),
    ("left extends root", .ofList [("+main", ["note after id"])]),
    ("right extends root", .empty),
    ("root", .ofList [("main", ["id", ":hide"])])]

theorem diamond_grounded : ∀ p ∈ (ofDefs diamond).names, (ofDefs diamond).Grounded p := by
  have hroot : (ofDefs diamond).Grounded "root" :=
    grounded_of_parents (p := ⟨"root", [], .ofList [("main", ["id", ":hide"])]⟩)
      (by decide +kernel) (by simp)
  have hleft : (ofDefs diamond).Grounded "left" :=
    grounded_of_parents (p := ⟨"left", ["root"], .ofList [("+main", ["note after id"])]⟩)
      (by decide +kernel) (by simpa using hroot)
  have hright : (ofDefs diamond).Grounded "right" :=
    grounded_of_parents (p := ⟨"right", ["root"], .empty⟩)
      (by decide +kernel) (by simpa using hroot)
  have htip : (ofDefs diamond).Grounded "tip" :=
    grounded_of_parents (p := ⟨"tip", ["left", "right", "left"], .ofList [("main", ["id"])]⟩)
      (by decide +kernel) (by simp [hleft, hright])
  have hnames : (ofDefs diamond).names = ["tip", "left", "right", "root"] := by decide +kernel
  rw [hnames]
  simp [hroot, hleft, hright, htip]

/-- Two palettes that extend each other, the second one a missing palette as well. -/
def knot : PaletteDefs := .ofList
  [("one extends two", .ofList [("main", ["id"])]),
    ("two extends gone extends one", .ofList [("-main", ["id"])])]

end Palettes.PreparedTable
