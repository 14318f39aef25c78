import Palettes.Proofs.Depth

/-!
What an operation leaves in a resolver, and what it asks the source for. It is
about one table, and it asks for no other and changes no other's entry, however
deep the walk nests, whatever the listeners do and however it ends: the table is
prepared before anything is told, and from then on it is met as it is kept.
-/
namespace Palettes

namespace Resolver

variable {ι σ : Type} {r : Resolver} {source : Source} {table other palette : String}

theorem prepared?_clear : (r.clear table).prepared? other =
    if other = table then none else r.prepared? other :=
  Listing.get?_erase r.cache table other

theorem prepared?_keep_eq {t : PreparedTable} : (r.keep table t).prepared? other =
    if other = table then some t else r.prepared? other :=
  Listing.get?_insert r.cache table other t

/-- A table that is let go of was as good as never kept. -/
theorem clear_keep (t : PreparedTable) : (r.keep table t).clear table = r.clear table := by
  simp only [clear, keep, Listing.erase_insert]

/-! ## Tables that an operation is not about -/

/-- Two resolvers with the same options that keep the same of every table but one. -/
structure AgreeBeside (table : String) (r r' : Resolver) : Prop where
  options : r'.options = r.options
  prepared? : ∀ other, other ≠ table → r'.prepared? other = r.prepared? other

namespace AgreeBeside

theorem refl (r : Resolver) : AgreeBeside table r r := ⟨rfl, fun _ _ => rfl⟩

theorem clear (r : Resolver) : AgreeBeside table r (r.clear table) where
  options := rfl
  prepared? other h := by rw [prepared?_clear, if_neg h]

theorem keep (r : Resolver) (t : PreparedTable) : AgreeBeside table r (r.keep table t) where
  options := rfl
  prepared? other h := by rw [prepared?_keep_eq, if_neg h]

theorem prepare (r : Resolver) (source : Source) :
    AgreeBeside table r (r.prepare source table).2.1 := by
  cases hdefs : source table with
  | none =>
    rw [prepare_of_undefined hdefs]
    exact refl r
  | some defs =>
    rw [prepare_of_defined hdefs]
    exact keep r (.ofDefs defs)

theorem settled (r : Resolver) (source : Source) :
    AgreeBeside table r (r.settled source table) := by
  unfold Resolver.settled
  split
  · exact refl r
  · exact prepare r source

end AgreeBeside

/-! ## The operations -/

/-- A table that is neither kept nor defined has no palettes: nothing is told,
and nothing is kept of it. -/
theorem resolvePalette?_undefined (h : r.prepared? table = none) (hdefs : source table = none)
    (palette : String) (l : Listener ι σ) (i : ι) (state : σ) :
    ∃ o, r.resolvePalette? source table palette l i state = some o ∧
      o.result = .error (.undefinedPalette table palette) ∧ o.state = state ∧
      o.resolver = r ∧ o.lookups = [table] := by
  obtain ⟨hempty, hsettled, hasked⟩ := settled_of_undefined h hdefs
  obtain ⟨depth, hdepth⟩ : ∃ depth, r.depthFor source table = depth + 1 :=
    Nat.exists_eq_succ_of_ne_zero (Nat.ne_zero_of_lt (Options.lt_depth _ _))
  have htold : Telling.palette ⟨r.setting table (r.tableFor source table), l⟩
      (r.depthFor source table) palette i state =
        some (.error (.undefinedPalette table palette), state) := by
    rw [hdepth]
    exact Telling.palette_undefined (by rw [hempty]; rfl) i state
  obtain ⟨o, ho, hresult, hstate⟩ := resolvePalette?_of_told htold
  obtain ⟨-, hresolver, hlookups⟩ := resolvePalette?_told ho
  exact ⟨o, ho, hresult, hstate, hresolver.trans hsettled, hlookups.trans hasked⟩

theorem resolve?_lets_go {l : Listener ι σ} {i : ι} {state : σ} {defs : PaletteDefs}
    {o : Outcome σ Bool} (hdefs : source table = some defs)
    (h : r.resolve? source table l i state = some o) :
    o.resolver = r.clear table ∧ o.lookups = [table] := by
  obtain ⟨-, -, -, hresolver, hlookups⟩ := resolve?_told hdefs h
  exact ⟨hresolver.trans (clear_keep _), hlookups⟩

theorem resolve?_agreeBeside {l : Listener ι σ} {i : ι} {state : σ} {o : Outcome σ Bool}
    (h : r.resolve? source table l i state = some o) : AgreeBeside table r o.resolver := by
  cases hdefs : source table with
  | none =>
    rw [r.resolve?_none l i state hdefs] at h
    cases h
    exact .refl r
  | some defs =>
    rw [(resolve?_lets_go hdefs h).1]
    exact .clear r

theorem resolvePalette?_agreeBeside {l : Listener ι σ} {i : ι} {state : σ} {o : Outcome σ Unit}
    (h : r.resolvePalette? source table palette l i state = some o) :
    AgreeBeside table r o.resolver := by
  obtain ⟨-, hresolver, -⟩ := resolvePalette?_told h
  rw [hresolver]
  exact .settled r source

variable (r source table)

/-- Resolving a table asks for it once and keeps nothing of it, unless it is
not defined: then nothing happens at all. Resolving a palette asks for the table
once if it is not kept, and keeps it. Other tables are never touched. With cycle
detection both come to an end, whatever the listener does. -/
theorem operations_touch_one_table (l : Listener ι σ) (i : ι) (state : σ) :
    (source table = none →
      ∃ o, r.resolve? source table l i state = some o ∧ o.lookups = [table] ∧
        o.result = .ok false ∧ o.state = state ∧ o.resolver = r) ∧
    (∀ defs o, source table = some defs → r.resolve? source table l i state = some o →
      o.lookups = [table] ∧ o.resolver.cache = r.cache.erase table) ∧
    (∀ palette t o, r.prepared? table = some t →
      r.resolvePalette? source table palette l i state = some o →
        o.lookups = [] ∧ o.resolver = r) ∧
    (∀ palette defs o, r.prepared? table = none → source table = some defs →
      r.resolvePalette? source table palette l i state = some o →
        o.lookups = [table] ∧ o.resolver.cache = r.cache.insert table (.ofDefs defs)) ∧
    (∀ palette, r.prepared? table = none → source table = none →
      ∃ o, r.resolvePalette? source table palette l i state = some o ∧ o.lookups = [table] ∧
        o.result = .error (.undefinedPalette table palette) ∧ o.state = state ∧
        o.resolver = r) ∧
    ((∀ o, r.resolve? source table l i state = some o → AgreeBeside table r o.resolver) ∧
      (∀ palette o, r.resolvePalette? source table palette l i state = some o →
        AgreeBeside table r o.resolver) ∧
      AgreeBeside table r (r.prepare source table).2.1 ∧ AgreeBeside table r (r.clear table)) ∧
    (r.options.detectCycles = true → (r.resolve? source table l i state).isSome ∧
      ∀ palette, (r.resolvePalette? source table palette l i state).isSome) := by
  refine ⟨?_, ?_, ?_, ?_, ?_, ⟨?_, ?_, .prepare r source, .clear r⟩, ?_⟩
  · intro hdefs
    exact ⟨_, r.resolve?_none l i state hdefs, rfl, rfl, rfl, rfl⟩
  · intro defs o hdefs ho
    obtain ⟨hresolver, hlookups⟩ := resolve?_lets_go hdefs ho
    exact ⟨hlookups, by rw [hresolver, clear]⟩
  · intro palette t o hkept ho
    obtain ⟨-, hresolver, hlookups⟩ := resolvePalette?_told ho
    obtain ⟨hsettled, hasked⟩ := settled_of_kept hkept
    exact ⟨hlookups.trans hasked, hresolver.trans (hsettled source).2⟩
  · intro palette defs o hcache hdefs ho
    obtain ⟨-, hresolver, hlookups⟩ := resolvePalette?_told ho
    obtain ⟨-, hsettled, hasked⟩ := settled_of_defined hcache hdefs
    exact ⟨hlookups.trans hasked, by rw [hresolver, hsettled, keep]⟩
  · intro palette hcache hdefs
    obtain ⟨o, ho, hresult, hstate, hresolver, hlookups⟩ :=
      resolvePalette?_undefined hcache hdefs palette l i state
    exact ⟨o, ho, hlookups, hresult, hstate, hresolver⟩
  · exact fun o ho => resolve?_agreeBeside ho
  · exact fun palette o ho => resolvePalette?_agreeBeside ho
  · exact fun hdetect => ⟨r.resolve?_isSome source table l i state hdetect,
      fun palette => r.resolvePalette?_isSome source table l i state hdetect palette⟩

end Resolver

/-- A listener that asks for every parent twice and passes over what comes of it. -/
def Listener.insistent : Listener Unit (List Call) where
  receive _ call calls := calls ++ [call]
  inherit _ _ calls :=
    .resolve () calls fun _ calls => .resolve () calls fun _ calls => .conclude (.ok ()) calls

/-- Two palettes that extend each other and a palette that is missing, asked for
again and again: the table is asked for once, and the other table that is kept
stays. So it does where nothing is defined. -/
theorem Resolver.insistent_touches_one_table :
    (∃ o, (({} : Resolver).keep "other" .empty).resolve? (fun _ => some PreparedTable.knot) "shop"
        Listener.insistent () [] = some o ∧ o.result = .ok true ∧ o.lookups = ["shop"] ∧
        o.resolver.cache.names = ["other"]) ∧
    (∃ o, (({} : Resolver).keep "other" .empty).resolvePalette?
        (fun _ => some PreparedTable.knot) "shop" "one" Listener.insistent () [] = some o ∧
        o.lookups = ["shop"] ∧ o.resolver.cache.names = ["other", "shop"]) ∧
    (∃ o, (({} : Resolver).keep "shop" (.ofDefs PreparedTable.knot)).resolvePalette?
        (fun _ => none) "shop" "one" Listener.insistent () [] = some o ∧ o.lookups = [] ∧
        o.resolver.cache.names = ["shop"]) ∧
    (∃ o, (({} : Resolver).keep "other" .empty).resolve? (fun _ => none) "shop"
        Listener.insistent () [] = some o ∧ o.result = .ok false ∧ o.lookups = ["shop"] ∧
        o.state = []) ∧
    ∃ o, (({} : Resolver).keep "other" .empty).resolvePalette? (fun _ => none) "shop" "one"
        Listener.insistent () [] = some o ∧ o.result = .error (.undefinedPalette "shop" "one") ∧
        o.lookups = ["shop"] ∧ o.state = [] := by
  have hknot := operations_touch_one_table (({} : Resolver).keep "other" .empty)
    (fun _ => some PreparedTable.knot) "shop" Listener.insistent () []
  have hkept := operations_touch_one_table
    (({} : Resolver).keep "shop" (.ofDefs PreparedTable.knot)) (fun _ => none) "shop"
    Listener.insistent () []
  have hnone := operations_touch_one_table (({} : Resolver).keep "other" .empty)
    (fun _ => none) "shop" Listener.insistent () []
  obtain ⟨-, htable, -, hpalette, -, -, hends⟩ := hknot
  obtain ⟨-, -, hagain, -, -, -, hendsAgain⟩ := hkept
  obtain ⟨hnoTable, -, -, -, hnoPalette, -, -⟩ := hnone
  refine ⟨?_, ?_, ?_, ?_, ?_⟩
  · have hresult : ((({} : Resolver).keep "other" .empty).resolve?
        (fun _ => some PreparedTable.knot) "shop" Listener.insistent () []).map (·.result) =
          some (.ok true) := by rfl
    obtain ⟨o, ho, hok⟩ := Option.map_eq_some_iff.mp hresult
    obtain ⟨hlookups, hcache⟩ := htable _ o rfl ho
    exact ⟨o, ho, hok, hlookups, by rw [hcache]; decide⟩
  · obtain ⟨o, ho⟩ := Option.isSome_iff_exists.mp ((hends rfl).2 "one")
    obtain ⟨hlookups, hcache⟩ := hpalette "one" _ o (by decide) rfl ho
    exact ⟨o, ho, hlookups, by rw [hcache]; decide⟩
  · obtain ⟨o, ho⟩ := Option.isSome_iff_exists.mp ((hendsAgain rfl).2 "one")
    obtain ⟨hlookups, hresolver⟩ := hagain "one" _ o rfl ho
    exact ⟨o, ho, hlookups, by rw [hresolver]; decide⟩
  · obtain ⟨o, ho, hlookups, hresult, hstate, -⟩ := hnoTable rfl
    exact ⟨o, ho, hresult, hlookups, hstate⟩
  · obtain ⟨o, ho, hlookups, hresult, hstate, -⟩ := hnoPalette "one" (by decide) rfl
    exact ⟨o, ho, hresult, hlookups, hstate⟩

end Palettes
