/-!
A listing is a finite map from names to values that remembers the order in
which the names were first given. Giving a name again replaces its value and
leaves it in its place, so `names (insert k a)` only ever grows at the end.
-/
namespace Palettes

universe u v

structure Listing (α : Type u) where
  entries : List (String × α)
  nodup : (entries.map Prod.fst).Nodup

namespace Listing

variable {α : Type u} {β : Type v}

theorem ext {l m : Listing α} (h : l.entries = m.entries) : l = m := by
  cases l; cases m; simp_all

instance [DecidableEq α] : DecidableEq (Listing α) := fun l m =>
  if h : l.entries = m.entries then isTrue (ext h) else isFalse fun e => h (e ▸ rfl)

def empty : Listing α := ⟨[], List.nodup_nil⟩

instance : Inhabited (Listing α) := ⟨empty⟩

def names (l : Listing α) : List String := l.entries.map Prod.fst

def values (l : Listing α) : List α := l.entries.map Prod.snd

def size (l : Listing α) : Nat := l.entries.length

def isEmpty (l : Listing α) : Bool := l.entries.isEmpty

def get? (l : Listing α) (k : String) : Option α := l.entries.lookup k

def contains (l : Listing α) (k : String) : Bool := (l.get? k).isSome

/-- Replace the value under `k` where it stands, or add it at the end. -/
def put (k : String) (a : α) : List (String × α) → List (String × α)
  | [] => [(k, a)]
  | e :: es => if e.1 = k then (k, a) :: es else e :: put k a es

theorem map_fst_put (k : String) (a : α) (es : List (String × α)) :
    (put k a es).map Prod.fst =
      if k ∈ es.map Prod.fst then es.map Prod.fst else es.map Prod.fst ++ [k] := by
  induction es with
  | nil => simp [put]
  | cons e es ih =>
    by_cases h : e.1 = k
    · simp [put, h]
    · simp only [put, h, if_false, List.map_cons, ih, List.mem_cons, Ne.symm h, false_or]
      split <;> simp

theorem nodup_put (k : String) (a : α) {es : List (String × α)}
    (h : (es.map Prod.fst).Nodup) : ((put k a es).map Prod.fst).Nodup := by
  rw [map_fst_put]
  split
  · exact h
  · next hk =>
    refine List.nodup_append.mpr ⟨h, by simp, fun x hx y hy => ?_⟩
    rw [List.mem_singleton.mp hy]
    exact fun e => hk (e ▸ hx)

theorem lookup_put (k j : String) (a : α) (es : List (String × α)) :
    (put k a es).lookup j = if j = k then some a else es.lookup j := by
  induction es with
  | nil =>
    by_cases h : j = k
    · simp [put, h]
    · simp [put, List.lookup_cons, beq_eq_false_iff_ne.mpr h, h]
  | cons e es ih =>
    obtain ⟨i, b⟩ := e
    by_cases h : i = k
    · subst h
      by_cases hj : j = i
      · simp [put, hj]
      · simp [put, List.lookup_cons, beq_eq_false_iff_ne.mpr hj, hj]
    · by_cases hj : j = i
      · subst hj; simp [put, h]
      · simp [put, h, List.lookup_cons, beq_eq_false_iff_ne.mpr hj, ih]

def insert (l : Listing α) (k : String) (a : α) : Listing α :=
  ⟨put k a l.entries, nodup_put k a l.nodup⟩

theorem names_insert (l : Listing α) (k : String) (a : α) :
    (l.insert k a).names = if k ∈ l.names then l.names else l.names ++ [k] :=
  map_fst_put k a l.entries

theorem put_of_notMem {k : String} (a : α) {es : List (String × α)} (h : k ∉ es.map Prod.fst) :
    put k a es = es ++ [(k, a)] := by
  induction es with
  | nil => rfl
  | cons e es ih =>
    rw [List.map_cons, List.mem_cons, not_or] at h
    rw [put, if_neg (Ne.symm h.1), ih h.2, List.cons_append]

/-- A new name goes to the end. -/
theorem entries_insert_of_notMem {l : Listing α} {k : String} (a : α) (h : k ∉ l.names) :
    (l.insert k a).entries = l.entries ++ [(k, a)] :=
  put_of_notMem a h

theorem mem_put {k : String} {a : α} {e : String × α} {es : List (String × α)}
    (h : e ∈ put k a es) : e = (k, a) ∨ e ∈ es := by
  induction es with
  | nil => exact .inl (List.mem_singleton.mp h)
  | cons e' es ih =>
    rw [put] at h
    split at h
    · exact (List.mem_cons.mp h).imp id (List.mem_cons_of_mem e')
    · rcases List.mem_cons.mp h with rfl | h
      · exact .inr List.mem_cons_self
      · exact (ih h).imp id (List.mem_cons_of_mem e')

/-- Nothing but the given pair comes in. -/
theorem mem_entries_insert {l : Listing α} {k : String} {a : α} {e : String × α}
    (h : e ∈ (l.insert k a).entries) : e = (k, a) ∨ e ∈ l.entries :=
  mem_put h

theorem get?_insert (l : Listing α) (k j : String) (a : α) :
    (l.insert k a).get? j = if j = k then some a else l.get? j :=
  lookup_put k j a l.entries

@[simp] theorem get?_empty (k : String) : (empty : Listing α).get? k = none := rfl

@[simp] theorem names_empty : (empty : Listing α).names = [] := rfl

theorem names_nodup (l : Listing α) : l.names.Nodup := l.nodup

@[simp] theorem length_names (l : Listing α) : l.names.length = l.size := by simp [names, size]

/-- The names are those that have a value. -/
theorem mem_names_iff (l : Listing α) (k : String) : k ∈ l.names ↔ ∃ a, l.get? k = some a := by
  rw [← Option.isSome_iff_exists, get?, List.lookup_isSome_iff, names, List.mem_map]
  simp only [beq_iff_eq, eq_comm (a := k)]

theorem lookup_eq_none_iff (k : String) (es : List (String × α)) :
    es.lookup k = none ↔ k ∉ es.map Prod.fst := by
  rw [← Option.not_isSome_iff_eq_none, List.lookup_isSome_iff, List.mem_map]
  simp only [beq_iff_eq, eq_comm (a := k)]

/-- Every entry is found under its name. -/
theorem get?_of_mem {l : Listing α} {e : String × α} (h : e ∈ l.entries) :
    l.get? e.1 = some e.2 := by
  obtain ⟨before, after, hsplit⟩ := List.append_of_mem h
  have hnodup := l.nodup
  rw [hsplit, List.map_append, List.map_cons, List.nodup_append] at hnodup
  refine List.lookup_eq_some_iff.mpr ⟨before, after, hsplit, fun x hx => ?_⟩
  exact bne_iff_ne.mpr (hnodup.2.2 x.1 (List.mem_map_of_mem hx) e.1 List.mem_cons_self).symm

/-- Forget a name; the others keep their order. -/
def erase (l : Listing α) (k : String) : Listing α :=
  ⟨l.entries.filter (·.1 != k), (l.nodup.sublist ((List.filter_sublist).map Prod.fst))⟩

theorem lookup_filter_ne (k j : String) (es : List (String × α)) :
    (es.filter (·.1 != k)).lookup j = if j = k then none else es.lookup j := by
  induction es with
  | nil => simp
  | cons e es ih =>
    obtain ⟨i, b⟩ := e
    by_cases h : i = k
    · subst h
      by_cases hj : j = i
      · simpa [hj] using ih
      · simpa [List.lookup_cons, beq_eq_false_iff_ne.mpr hj, hj] using ih
    · by_cases hj : j = i
      · subst hj; simp [h]
      · simp [h, List.lookup_cons, beq_eq_false_iff_ne.mpr hj, ih]

theorem filter_ne_put (k : String) (a : α) (es : List (String × α)) :
    (put k a es).filter (·.1 != k) = es.filter (·.1 != k) := by
  induction es with
  | nil => simp [put]
  | cons e es ih =>
    by_cases h : e.1 = k
    · simp [put, h]
    · simp [put, h, ih]

theorem get?_erase (l : Listing α) (k j : String) :
    (l.erase k).get? j = if j = k then none else l.get? j :=
  lookup_filter_ne k j l.entries

/-- What is forgotten leaves no trace. -/
theorem erase_insert (l : Listing α) (k : String) (a : α) : (l.insert k a).erase k = l.erase k :=
  ext (filter_ne_put k a l.entries)

/-- Change the value under `k`, starting from `d` if there is none yet. -/
def alter (l : Listing α) (k : String) (d : α) (f : α → α) : Listing α :=
  l.insert k (f ((l.get? k).getD d))

/-- Insert pairs one by one, the first pair first. -/
def insertAll (l : Listing α) (es : List (String × α)) : Listing α :=
  es.foldl (fun m e => m.insert e.1 e.2) l

def ofList (es : List (String × α)) : Listing α := empty.insertAll es

theorem insertAll_append (l : Listing α) (es fs : List (String × α)) :
    l.insertAll (es ++ fs) = (l.insertAll es).insertAll fs :=
  List.foldl_append

/-- Of several pairs with one name the last gives the value. -/
theorem get?_insertAll (l : Listing α) (es : List (String × α)) (k : String) :
    (l.insertAll es).get? k = (es.reverse.lookup k).or (l.get? k) := by
  induction es generalizing l with
  | nil => simp [insertAll]
  | cons e es ih =>
    obtain ⟨i, a⟩ := e
    have hfirst : (l.insert i a).get? k = ([(i, a)].lookup k).or (l.get? k) := by
      rw [get?_insert]
      by_cases h : k = i
      · simp [h]
      · simp [List.lookup_cons, beq_eq_false_iff_ne.mpr h, h]
    rw [insertAll, List.foldl_cons, ← insertAll, ih, hfirst, List.reverse_cons,
      List.lookup_append, Option.or_assoc]

/-- New names come behind the old ones, in the order in which they first occur. -/
theorem names_insertAll (l : Listing α) (es : List (String × α)) :
    (l.insertAll es).names = l.names ++ ((es.map Prod.fst).removeAll l.names).eraseDups := by
  induction es generalizing l with
  | nil => simp [insertAll]
  | cons e es ih =>
    rw [insertAll, List.foldl_cons, ← insertAll, ih, names_insert, List.map_cons]
    by_cases h : e.1 ∈ l.names
    · simp [List.removeAll, h]
    · have hrest : (es.map Prod.fst).removeAll (l.names ++ [e.1]) =
          ((es.map Prod.fst).removeAll l.names).filter (fun k => !k == e.1) := by
        rw [List.removeAll, List.removeAll, List.filter_filter]
        exact List.filter_congr fun k _ => by simp [Bool.beq_eq_decide_eq, Bool.and_comm]
      have hfirst : (e.1 :: es.map Prod.fst).removeAll l.names =
          e.1 :: (es.map Prod.fst).removeAll l.names := by simp [List.removeAll, h]
      rw [if_neg h, hrest, hfirst, List.eraseDups_cons, List.append_assoc, List.singleton_append]

/-- Which names come out depends on names alone. -/
theorem names_insertAll_congr {l m : Listing α} {es : List (String × α)} {fs : List (String × α)}
    (hl : l.names = m.names) (hes : es.map Prod.fst = fs.map Prod.fst) :
    (l.insertAll es).names = (m.insertAll fs).names := by
  rw [names_insertAll, names_insertAll, hl, hes]

theorem get?_ofList (es : List (String × α)) (k : String) :
    (ofList es).get? k = es.reverse.lookup k := by
  rw [ofList, get?_insertAll, get?_empty, Option.or_none]

theorem names_ofList (es : List (String × α)) :
    (ofList es).names = (es.map Prod.fst).eraseDups := by
  rw [ofList, names_insertAll, names_empty, List.nil_append, List.removeAll_nil]

theorem nodup_eraseDups (names : List String) : names.eraseDups.Nodup := by
  have h := (ofList (names.map fun k => (k, ()))).names_nodup
  rwa [names_ofList, List.map_map, show Prod.fst ∘ (fun k => (k, ())) = id from rfl,
    List.map_id] at h

/-- Pairs with new names stay as they are. -/
theorem entries_insertAll (l : Listing α) (es : List (String × α))
    (h : ((l.entries ++ es).map Prod.fst).Nodup) : (l.insertAll es).entries = l.entries ++ es := by
  induction es generalizing l with
  | nil => simp [insertAll]
  | cons e es ih =>
    have hnew : e.1 ∉ l.names := by
      rw [List.map_append, List.map_cons] at h
      exact fun hmem => (List.nodup_append.mp h).2.2 e.1 hmem e.1 List.mem_cons_self rfl
    have hfirst := entries_insert_of_notMem e.2 hnew
    rw [insertAll, List.foldl_cons, ← insertAll, ih, hfirst, List.append_assoc,
      List.singleton_append]
    rwa [hfirst, List.append_assoc, List.singleton_append]

theorem ofList_entries (l : Listing α) : ofList l.entries = l :=
  ext (entries_insertAll empty l.entries l.nodup)

/-- A listing is its names in their order, and what is found under each. -/
theorem ext_get? {l m : Listing α} (hnames : l.names = m.names)
    (hget : ∀ k, l.get? k = m.get? k) : l = m := by
  apply ext
  apply List.ext_getElem
  · simpa [names] using congrArg List.length hnames
  · intro i hl hm
    have hname : l.entries[i].1 = m.entries[i].1 := by
      have h := congrArg (·[i]?) hnames
      simpa [names, List.getElem?_map, List.getElem?_eq_getElem, hl, hm] using h
    have hvalue := hget l.entries[i].1
    rw [get?_of_mem (List.getElem_mem hl), hname, get?_of_mem (List.getElem_mem hm)] at hvalue
    exact Prod.ext hname (Option.some.inj hvalue)

theorem insert_insert (l : Listing α) (k : String) (a b : α) :
    (l.insert k b).insert k a = l.insert k a := by
  apply ext_get?
  · have hmem : k ∈ (l.insert k b).names :=
      (mem_names_iff _ k).mpr ⟨b, by simp [get?_insert]⟩
    rw [names_insert, if_pos hmem, names_insert, names_insert]
  · intro j
    simp only [get?_insert]
    split <;> rfl

/-- A name that stands already keeps its place, whatever else is inserted. -/
theorem insert_comm {l : Listing α} {k j : String} (hk : k ∈ l.names) (hne : j ≠ k) (a b : α) :
    (l.insert j b).insert k a = (l.insert k a).insert j b := by
  have hkeep : (l.insert k a).names = l.names := by rw [names_insert, if_pos hk]
  have hmem : k ∈ (l.insert j b).names := by
    rw [names_insert]
    split
    · exact hk
    · exact List.mem_append_left _ hk
  apply ext_get?
  · rw [names_insert, if_pos hmem, names_insert, names_insert, hkeep]
  · intro i
    simp only [get?_insert]
    by_cases hi : i = k
    · simp [hi, hne.symm]
    · simp [hi]

theorem insertAll_insert_comm {l : Listing α} {k : String} (hk : k ∈ l.names) (a : α)
    {es : List (String × α)} (hnew : k ∉ es.map Prod.fst) :
    (l.insertAll es).insert k a = (l.insert k a).insertAll es := by
  induction es generalizing l with
  | nil => rfl
  | cons e es ih =>
    rw [List.map_cons, List.mem_cons, not_or] at hnew
    have hmem : k ∈ (l.insert e.1 e.2).names := by
      rw [names_insert]
      split
      · exact hk
      · exact List.mem_append_left _ hk
    calc ((l.insert e.1 e.2).insertAll es).insert k a
        = ((l.insert e.1 e.2).insert k a).insertAll es := ih hmem hnew.2
      _ = ((l.insert k a).insert e.1 e.2).insertAll es := by
        rw [insert_comm hk (Ne.symm hnew.1)]

theorem insertAll_put (l : Listing α) (k : String) (a : α) {es : List (String × α)}
    (hes : (es.map Prod.fst).Nodup) :
    l.insertAll (put k a es) = (l.insertAll es).insert k a := by
  induction es generalizing l with
  | nil => rfl
  | cons e es ih =>
    obtain ⟨hnew, hes⟩ := List.nodup_cons.mp hes
    rw [put]
    split
    · next h =>
      subst h
      have hmem : e.1 ∈ (l.insert e.1 e.2).names :=
        (mem_names_iff _ _).mpr ⟨e.2, by simp [get?_insert]⟩
      calc (l.insert e.1 a).insertAll es
          = ((l.insert e.1 e.2).insert e.1 a).insertAll es := by rw [insert_insert]
        _ = ((l.insert e.1 e.2).insertAll es).insert e.1 a :=
          (insertAll_insert_comm hmem a hnew).symm
    · exact ih (l.insert e.1 e.2) hes

/-- To insert a listing that took in pairs is to insert it and then the pairs. -/
theorem insertAll_insertAll (l m : Listing α) (es : List (String × α)) :
    l.insertAll (m.insertAll es).entries = (l.insertAll m.entries).insertAll es := by
  induction es generalizing m with
  | nil => rfl
  | cons e es ih =>
    calc l.insertAll ((m.insert e.1 e.2).insertAll es).entries
        = (l.insertAll (m.insert e.1 e.2).entries).insertAll es := ih (m.insert e.1 e.2)
      _ = ((l.insertAll m.entries).insert e.1 e.2).insertAll es := by
        rw [insert, insertAll_put l e.1 e.2 m.nodup]

theorem get?_insertAll_entries (l m : Listing α) (k : String) :
    (l.insertAll m.entries).get? k = (m.get? k).or (l.get? k) := by
  rw [get?_insertAll, ← get?_ofList, ofList_entries]

/-- A listing has nothing new to take from itself. -/
theorem insertAll_self (l : Listing α) : l.insertAll l.entries = l := by
  apply ext_get?
  · have hnone : (l.entries.map Prod.fst).removeAll l.names = [] := by
      simp [List.removeAll, names]
    rw [names_insertAll, hnone, List.eraseDups_nil, List.append_nil]
  · intro k
    rw [get?_insertAll_entries, Option.or_self]

/-- Pairs that are made from a list are looked up in it. -/
theorem lookup_map {γ : Type v} (key : γ → String) (f : γ → α) (xs : List γ) (k : String) :
    (xs.map fun x => (key x, f x)).lookup k = (xs.find? fun x => key x = k).map f := by
  induction xs with
  | nil => rfl
  | cons x xs ih =>
    by_cases h : key x = k
    · simp [h]
    · simp [List.lookup_cons, beq_eq_false_iff_ne.mpr (Ne.symm h), h, ih]

end Listing

end Palettes
