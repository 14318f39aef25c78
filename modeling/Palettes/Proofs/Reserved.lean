import Mathlib.Data.List.Forall2
import Palettes.Proofs.Locality

/-!
Reserved tokens. All that an entry's reserved tokens come to is whether the one
that hides is among them: not how many there are, where they stand among the
others, in which order, or what else they say. Two tables that differ in nothing
but this have palettes with the same parents, whose legends come to the same
calls, and a telling sees no more of a palette than that.
-/
namespace Palettes

variable {ι σ : Type}

/-! ## Tables that differ in reserved tokens -/

/-- Listings with the same names in the same order, and related values under them. -/
def Listing.Rel {α β : Type} (R : α → β → Prop) (l : Listing α) (m : Listing β) : Prop :=
  List.Forall₂ (fun e f => e.1 = f.1 ∧ R e.2 f.2) l.entries m.entries

namespace Listing.Rel

variable {α β : Type} {R : α → β → Prop} {l : Listing α} {m : Listing β}

instance [DecidableRel R] : DecidableRel (Listing.Rel R) := fun l m =>
  inferInstanceAs (Decidable (List.Forall₂ _ l.entries m.entries))

theorem names (h : l.Rel R m) : m.names = l.names := by
  rw [Listing.names, Listing.names]
  unfold Listing.Rel at h
  generalize l.entries = es, m.entries = fs at h
  induction h with
  | nil => rfl
  | cons hef _ ih => rw [List.map_cons, List.map_cons, ih, hef.1]

/-- Under a name both have related values, or neither has one. -/
theorem get? (h : l.Rel R m) (k : String) :
    (l.get? k = none ∧ m.get? k = none) ∨
      ∃ a b, l.get? k = some a ∧ m.get? k = some b ∧ R a b := by
  rw [Listing.get?, Listing.get?]
  unfold Listing.Rel at h
  generalize l.entries = es, m.entries = fs at h
  induction h with
  | nil => exact .inl ⟨rfl, rfl⟩
  | @cons e f es fs hef _ ih =>
    obtain ⟨i, a⟩ := e
    obtain ⟨j, b⟩ := f
    obtain ⟨rfl, hab⟩ := hef
    by_cases hk : k = i
    · subst hk
      exact .inr ⟨a, b, by simp, by simp, hab⟩
    · simpa [List.lookup_cons, beq_eq_false_iff_ne.mpr hk] using ih

end Listing.Rel

namespace Token

/-- Field tokens that differ in reserved ones at most, and not in whether the one
that hides is there. -/
structure Alike (fields fields' : List String) : Prop where
  plain : fields'.filter (!isReserved ·) = fields.filter (!isReserved ·)
  hides : hideMark ∈ fields' ↔ hideMark ∈ fields

instance : DecidableRel Alike := fun fields fields' =>
  decidable_of_iff (fields'.filter (!isReserved ·) = fields.filter (!isReserved ·) ∧
    (hideMark ∈ fields' ↔ hideMark ∈ fields)) ⟨fun h => ⟨h.1, h.2⟩, fun h => ⟨h.1, h.2⟩⟩

/-- Alike tokens are announced alike; only what is said of dropped ones differs. -/
theorem Alike.calls_ofEntry {fields fields' : List String} (h : Alike fields fields')
    (token : String) (ancestor : Bool) :
    (Announcement.ofEntry token fields' ancestor).calls =
      (Announcement.ofEntry token fields ancestor).calls := by
  have hhides : fields'.contains hideMark = fields.contains hideMark :=
    Bool.eq_iff_iff.mpr (by simpa using h.hides)
  simp only [Announcement.ofEntry, Announcement.calls, h.plain, hhides]

end Token

/-- Legends with the same tokens, whose field tokens are alike. -/
def LegendDefs.Alike : LegendDefs → LegendDefs → Prop := Listing.Rel Token.Alike

/-- Palettes with the same written names, whose legends are alike. -/
def PaletteDefs.Alike : PaletteDefs → PaletteDefs → Prop := Listing.Rel LegendDefs.Alike

instance : DecidableRel LegendDefs.Alike := inferInstanceAs (DecidableRel (Listing.Rel _))

instance : DecidableRel PaletteDefs.Alike := inferInstanceAs (DecidableRel (Listing.Rel _))

/-! ## What is told of a palette -/

/-- Tables with the same names, whose palettes are told alike. -/
structure PreparedTable.ToldAlike (t t' : PreparedTable) : Prop where
  names : t'.names = t.names
  alikeOn : ∀ name, t.AlikeOn t' name

namespace PreparedTable.ToldAlike

variable {t t' : PreparedTable}

theorem symm (h : t.ToldAlike t') : t'.ToldAlike t where
  names := h.names.symm
  alikeOn _ q _ := (h.alikeOn q q .refl).imp And.symm
    fun ⟨p, p', hp, hp', htold⟩ => ⟨p', p, hp', hp, htold.symm⟩

theorem size (h : t.ToldAlike t') : t'.size = t.size := by
  rw [← t'.length_names, ← t.length_names, h.names]

end PreparedTable.ToldAlike

theorem LegendDefs.Alike.ofWritten {legends legends' : LegendDefs} (h : legends.Alike legends')
    (w : String) :
    (PreparedPalette.ofWritten w legends).ToldAlike (PreparedPalette.ofWritten w legends') where
  parents := rfl
  calls ancestor := by
    change legends'.entries.flatMap _ = legends.entries.flatMap _
    unfold LegendDefs.Alike Listing.Rel at h
    generalize legends.entries = es, legends'.entries = fs at h
    induction h with
    | nil => rfl
    | cons hef _ ih =>
      rw [List.flatMap_cons, List.flatMap_cons, ih, hef.1, hef.2.calls_ofEntry]

theorem PaletteDefs.Alike.ofDefs {defs defs' : PaletteDefs} (h : defs.Alike defs') :
    (PreparedTable.ofDefs defs).ToldAlike (.ofDefs defs') where
  names := by rw [PreparedTable.names_ofDefs, PreparedTable.names_ofDefs, Listing.Rel.names h]
  alikeOn _ q _ := by
    rw [PreparedTable.get?_ofDefs, PreparedTable.get?_ofDefs, Listing.Rel.names h]
    cases WrittenName.last? q defs.names with
    | none => exact .inl ⟨rfl, rfl⟩
    | some w =>
      obtain ⟨hnone, hnone'⟩ | ⟨legends, legends', hlegends, hlegends', hw⟩ :=
        Listing.Rel.get? h w
      · exact .inl (by simp [hnone, hnone'])
      · exact .inr ⟨_, _, by simp [hlegends], by simp [hlegends'], hw.ofWritten w⟩

namespace Telling

variable {w : Setting} {t' : PreparedTable} {l : Listener ι σ}

variable (h : w.prepared.ToldAlike t')

include h

/-- At one depth each of the two tellings has an answer where the other has. -/
theorem palette_alike (depth : Nat) (name : String) (i : ι) (s : σ) :
    Telling.palette ⟨{ w with prepared := t' }, l⟩ depth name i s =
      Telling.palette ⟨w, l⟩ depth name i s :=
  (palette_le (w := { w with prepared := t' }) (h.symm.alikeOn name) (Nat.le_refl depth) i
    s).antisymm (palette_le (h.alikeOn name) (Nat.le_refl depth) i s)

theorem palettes_alike (depth : Nat) (i : ι) (names : List String) (s : σ) :
    Telling.palettes ⟨{ w with prepared := t' }, l⟩ depth i names s =
      Telling.palettes ⟨w, l⟩ depth i names s := by
  induction names generalizing s with
  | nil => rfl
  | cons name names ih => rw [palettes, palettes, palette_alike h, funext ih]

theorem whole_alike (depth : Nat) (i : ι) (s : σ) :
    Telling.whole ⟨{ w with prepared := t' }, l⟩ depth i s = Telling.whole ⟨w, l⟩ depth i s := by
  rw [whole, whole, h.names, palettes_alike h]

end Telling

/-! ## Operations -/

namespace Resolver

variable {options : Options} {source source' : Source} {table : String} {defs defs' : PaletteDefs}

/-- What shows of a table that a new resolver resolves. -/
theorem resolve?_new (options : Options) (hdefs : source table = some defs) (l : Listener ι σ)
    (i : ι) (s : σ) :
    (({ options } : Resolver).resolve? source table l i s).map Outcome.shown =
      (Telling.whole ⟨⟨table, .ofDefs defs, options.detectCycles⟩, l⟩
        (options.depth (PreparedTable.ofDefs defs).size) i s).map
        fun p => (p.1.map fun _ => true, p.2) :=
  resolve?_shown _ l i s hdefs

variable (hdefs : source table = some defs) (hdefs' : source' table = some defs')
  (halike : defs.Alike defs')

include hdefs hdefs' halike

theorem resolve?_alike (options : Options) (l : Listener ι σ) (i : ι) (s : σ) :
    (({ options } : Resolver).resolve? source' table l i s).map Outcome.shown =
      (({ options } : Resolver).resolve? source table l i s).map Outcome.shown := by
  rw [resolve?_new options hdefs', resolve?_new options hdefs, halike.ofDefs.size,
    ← Telling.whole_alike (w := ⟨table, .ofDefs defs, options.detectCycles⟩) halike.ofDefs]

theorem resolvePalette?_alike (options : Options) (palette : String) (l : Listener ι σ) (i : ι)
    (s : σ) :
    (({ options } : Resolver).resolvePalette? source' table palette l i s).map Outcome.shown =
      (({ options } : Resolver).resolvePalette? source table palette l i s).map Outcome.shown := by
  rw [resolvePalette?_new options hdefs', resolvePalette?_new options hdefs, halike.ofDefs.size,
    ← Telling.palette_alike (w := ⟨table, .ofDefs defs, options.detectCycles⟩) halike.ofDefs]

variable (options source source' table)

/-- Two sets of palettes that differ in reserved tokens at most, and in no entry in
whether it hides, are not told apart. New resolvers with the same options come
to the same with both, at the table and at every palette of it, and any listener
hears the same on the way, in and outside of its handles. -/
theorem reserved_tokens_do_not_show (l : Listener ι σ) (i : ι) (s : σ) :
    ((({ options } : Resolver).resolve? source' table l i s).map Outcome.shown =
        (({ options } : Resolver).resolve? source table l i s).map Outcome.shown ∧
      (({ options } : Resolver).resolve? source' table l.transcribed i { state := s }).map
          Outcome.shown =
        (({ options } : Resolver).resolve? source table l.transcribed i { state := s }).map
          Outcome.shown) ∧
    (∀ palette,
      (({ options } : Resolver).resolvePalette? source' table palette l i s).map Outcome.shown =
        (({ options } : Resolver).resolvePalette? source table palette l i s).map Outcome.shown ∧
      (({ options } : Resolver).resolvePalette? source' table palette l.transcribed i
          { state := s }).map Outcome.shown =
        (({ options } : Resolver).resolvePalette? source table palette l.transcribed i
          { state := s }).map Outcome.shown) ∧
    (options.detectCycles = true →
      (({ options } : Resolver).resolve? source table l i s).isSome ∧
        ∀ palette,
          (({ options } : Resolver).resolvePalette? source table palette l i s).isSome) := by
  refine ⟨⟨?_, ?_⟩, fun palette => ⟨?_, ?_⟩, fun hdetect => ⟨?_, fun palette => ?_⟩⟩
  · exact resolve?_alike hdefs hdefs' halike options l i s
  · exact resolve?_alike hdefs hdefs' halike options l.transcribed i { state := s }
  · exact resolvePalette?_alike hdefs hdefs' halike options palette l i s
  · exact resolvePalette?_alike hdefs hdefs' halike options palette l.transcribed i { state := s }
  · exact resolve?_isSome _ source table l i s hdetect
  · exact resolvePalette?_isSome _ source table l i s hdetect palette

omit hdefs hdefs' halike

/-- Entries without reserved tokens but those that hide. -/
def plain : PaletteDefs := .ofList
  [("base", .ofList [("main", ["id", "title", ":hide"]), ("+side", ["note"])]),
    ("wide extends base", .ofList [("-main", ["id"]), ("+side", ["link before note", ":hide"])])]

/-- The same with reserved tokens strewn about, some of them nearly the one that hides. -/
def strewn : PaletteDefs := .ofList
  [("base", .ofList
      [("main", [":hide", "id", ":", ":hide", "title"]), ("+side", [":Hide", "note"])]),
    ("wide extends base", .ofList
      [("-main", [":hide me", "id"]), ("+side", ["link before note", ":a", ":hide", ":b"])])]

/-- A recorder that follows parents records the same of both, down to the entry
that hides in the midst of other reserved tokens. -/
theorem strewn_is_told_as_plain :
    plain.Alike strewn ∧ plain ≠ strewn ∧ ∃ events : Recorder.Recording,
      (({} : Resolver).resolve? (fun _ => some strewn) "shop" (Recorder.listener true) () #[]).map
          Outcome.shown = some (.ok true, events) ∧
        events.toList.drop 13 =
          [.call (.legend ⟨"main", true, .visible⟩), .call (.field (.remove "main" "id")),
            .call (.legend ⟨"side", true, .hidden⟩),
            .call (.field (.place "side" "link" .before "note")), .call .finish] := by
  have halike : plain.Alike strewn := by decide +kernel
  obtain ⟨⟨hsame, -⟩, -⟩ := reserved_tokens_do_not_show {} (fun _ => some plain)
    (fun _ => some strewn) "shop" rfl rfl halike (Recorder.listener true) () #[]
  exact ⟨halike, by decide +kernel, _, hsame.trans rfl, rfl⟩

end Resolver

end Palettes
