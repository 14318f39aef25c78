import Palettes.Proofs.Conduct
import Palettes.Proofs.Detection

/-!
When resolving succeeds. For a listener that follows every parent, a palette
resolves exactly if it is grounded: all that it reaches is declared and on no
cycle. One direction reads the graph off a trace that ends well. For the other,
an error would be genuine, and a genuine error shows that the palette is not
grounded. There is an answer at all where cycles are detected, and otherwise
where none is in reach.
-/
namespace Palettes

namespace PreparedTable

variable {t : PreparedTable} {table top : String} {chain : List String} {e : ResolveError}

/-- Following parents leads from a palette to a cycle. -/
def LeadsToCycle (t : PreparedTable) (name : String) : Prop := ∃ q, t.Reaches name q ∧ t.OnCycle q

/-- A lasso leads from the palette to a cycle. -/
theorem Lasso.reaches_cycle (h : t.Lasso top chain) : ∃ q, t.Reaches top q ∧ t.OnCycle q := by
  obtain ⟨q, hq, hlast⟩ := h.closes
  have hsplit : chain.dropLast ++ [q] = chain := List.dropLast_append_getLast? q hlast
  have hpairs : chain.Pairwise (Relation.TransGen t.Extends) :=
    List.isChain_iff_pairwise.mp (h.isChain.imp fun _ _ hext => .single hext)
  rw [← hsplit, List.pairwise_append] at hpairs
  have hto (a : String) (ha : a ∈ chain.dropLast) : Relation.TransGen t.Extends a q :=
    hpairs.2.2 a ha q (by simp)
  have htop : top ∈ chain.dropLast := by
    have hhead := h.head?
    rw [← hsplit, List.head?_append_of_ne_nil _ (List.ne_nil_of_mem hq)] at hhead
    exact List.mem_of_mem_head? hhead
  exact ⟨q, (hto top htop).to_reflTransGen, hto q hq⟩

theorem Genuine.not_grounded (h : t.Genuine table top e) : ¬ t.Grounded top := by
  intro hg
  cases e with
  | undefinedPalette table' q =>
    obtain ⟨-, hmissing, rfl | ⟨a, hreach, hext⟩⟩ := h
    · exact hmissing (hg.declared q .refl)
    · exact hmissing (hg.declared q (hreach.tail hext))
  | cyclicInheritance chain =>
    obtain ⟨q, hreach, hcycle⟩ := Lasso.reaches_cycle h
    exact hg.acyclic q hreach hcycle

end PreparedTable

/-! ## What ends well is grounded -/

variable {w : Setting} {lineage parents names : List String} {name : String} {es : List Event}
  {v : Verdict}

theorem Trace.grounded (h : Trace w lineage parents es v) (hv : v = .ok ()) :
    ∀ q ∈ parents, w.prepared.Grounded q := by
  induction h with
  | done => simp
  | undefined => cases hv
  | cyclic => cases hv
  | stopped => cases hv
  | told hp _ _ _ ihAbove ihRest =>
    intro q hq
    rcases List.mem_cons.mp hq with rfl | hq
    · exact PreparedTable.grounded_of_parents hp (ihAbove rfl)
    · exact ihRest hv q hq

theorem PaletteTrace.grounded (h : PaletteTrace w name es (.ok ())) : w.prepared.Grounded name := by
  cases h with
  | told hp habove => exact PreparedTable.grounded_of_parents hp (habove.grounded rfl)

theorem PalettesTrace.grounded (h : PalettesTrace w names es v) (hv : v = .ok ()) :
    ∀ name ∈ names, w.prepared.Grounded name := by
  induction h with
  | done => simp
  | stopped => cases hv
  | told hname _ ih =>
    intro n hn
    rcases List.mem_cons.mp hn with rfl | hn
    · exact hname.grounded
    · exact ih hv n hn

/-! ## What is grounded ends well -/

/-- A listener that follows keeps nothing in particular and makes up no errors. -/
theorem Listener.Follows.safe {σ : Type} {l : Listener Unit σ} {hear : σ → Event → σ}
    (hl : l.Follows () hear) (Good : ResolveError → Prop) : l.Safe (fun _ => True) Good where
  content _ _ _ _ _ := trivial
  inherit i h s _ := by
    rw [hl.inherit]
    exact ⟨trivial, fun v s _ hgood => ⟨trivial, hgood⟩⟩

namespace Telling

variable {σ : Type} {l : Listener Unit σ} {hear : σ → Event → σ} (hl : l.Follows () hear)

include hl

theorem palette_genuine {depth : Nat} {s s' : σ} {e : ResolveError}
    (h : Telling.palette ⟨w, l⟩ depth name () s = some (.error e, s')) :
    w.prepared.Genuine w.table name e := by
  obtain ⟨hmissing, he, -⟩ | ⟨-, -, hgood⟩ :=
    palette_safe (t := ⟨w, l⟩) (hl.safe (w.prepared.Genuine w.table name)) (fun e he => he)
      trivial h
  · cases he
    exact ⟨rfl, hmissing, .inl rfl⟩
  · exact hgood e rfl

/-- Unless the palette leads to a cycle, detection is not needed for an answer. -/
theorem palette_ends (hguard : w.detectCycles = true ∨ ¬ w.prepared.LeadsToCycle name)
    {depth : Nat} (hdepth : w.prepared.size < depth) (s : σ) :
    (Telling.palette ⟨w, l⟩ depth name () s).isSome := by
  cases hd : w.detectCycles with
  | true => exact Telling.palette_isSome ⟨w, l⟩ hd hdepth name () s
  | false =>
    obtain ⟨⟨v, s'⟩, hon⟩ := Option.isSome_iff_exists.mp
      (Telling.palette_isSome ⟨w.detected, l⟩ rfl hdepth name () s)
    have hacyclic : Acyclic v := by
      rintro chain rfl
      have hlasso : w.prepared.Lasso name chain := palette_genuine hl hon
      exact hguard.resolve_left (by simp [hd]) hlasso.reaches_cycle
    have hoff := palette_undetected hl le_rfl hacyclic hon
    rw [w.undetected_detected hd] at hoff
    exact Option.isSome_iff_exists.mpr ⟨_, hoff⟩

theorem palettes_ends
    (hguard : w.detectCycles = true ∨ ∀ name ∈ names, ¬ w.prepared.LeadsToCycle name)
    {depth : Nat} (hdepth : w.prepared.size < depth) (s : σ) :
    (Telling.palettes ⟨w, l⟩ depth () names s).isSome := by
  induction names generalizing s with
  | nil => rfl
  | cons name names ih =>
    have hfirst := hguard.imp id fun h => h name List.mem_cons_self
    have hrest := hguard.imp id fun h n hn => h n (List.mem_cons_of_mem name hn)
    exact Answer.isSome_andThen (palette_ends hl hfirst hdepth s) (ih hrest)

theorem whole_ends
    (hguard : w.detectCycles = true ∨ ∀ name ∈ w.prepared.names, ¬ w.prepared.LeadsToCycle name)
    {depth : Nat} (hdepth : w.prepared.size < depth) (s : σ) :
    (Telling.whole ⟨w, l⟩ depth () s).isSome :=
  Answer.isSome_andThen (palettes_ends hl hguard hdepth s) fun _ => rfl

/-- With detection there is an answer, and without it the answer is the same. -/
theorem palette_of_grounded (hg : w.prepared.Grounded name) {depth : Nat}
    (hdepth : w.prepared.size < depth) (s : σ) :
    ∃ es, PaletteTrace w.detected name es (.ok ()) ∧
      Telling.palette ⟨w, l⟩ depth name () s = some (.ok (), es.foldl hear s) := by
  obtain ⟨⟨v, s'⟩, hon⟩ := Option.isSome_iff_exists.mp
    (Telling.palette_isSome ⟨w.detected, l⟩ rfl hdepth name () s)
  have hok : v = .ok () := by
    cases v with
    | ok _ => rfl
    | error e =>
      have hgenuine : w.prepared.Genuine w.table name e := palette_genuine (w := w.detected) hl hon
      exact absurd hg hgenuine.not_grounded
  subst hok
  obtain ⟨es, hes, rfl⟩ := palette_trace (t := ⟨w.detected, l⟩) hl depth hon
  refine ⟨es, hes, ?_⟩
  cases hd : w.detectCycles with
  | true =>
    rw [w.detected_of_on hd] at hon
    exact hon
  | false =>
    have hoff := palette_undetected hl le_rfl (acyclic_ok ()) hon
    rw [w.undetected_detected hd] at hoff
    exact hoff

theorem palettes_of_grounded (hg : ∀ name ∈ names, w.prepared.Grounded name) {depth : Nat}
    (hdepth : w.prepared.size < depth) (s : σ) :
    ∃ es, PalettesTrace w.detected names es (.ok ()) ∧
      Telling.palettes ⟨w, l⟩ depth () names s = some (.ok (), es.foldl hear s) := by
  induction names generalizing s with
  | nil => exact ⟨[], .done, rfl⟩
  | cons name names ih =>
    obtain ⟨es, hes, hname⟩ := palette_of_grounded hl (hg name List.mem_cons_self) hdepth s
    obtain ⟨rest, hrest, hnames⟩ :=
      ih (fun n hn => hg n (List.mem_cons_of_mem _ hn)) (es.foldl hear s)
    refine ⟨es ++ rest, .told hes hrest, ?_⟩
    rw [palettes, hname, Answer.andThen_ok, hnames, List.foldl_append]

theorem whole_of_grounded (hg : ∀ name ∈ w.prepared.names, w.prepared.Grounded name) {depth : Nat}
    (hdepth : w.prepared.size < depth) (s : σ) :
    ∃ es, PalettesTrace w.detected w.prepared.names es (.ok ()) ∧
      Telling.whole ⟨w, l⟩ depth () s =
        some (.ok (), (es ++ [Event.call .finish]).foldl hear s) := by
  obtain ⟨es, hes, h⟩ := palettes_of_grounded hl hg hdepth s
  refine ⟨es, hes, ?_⟩
  rw [whole, h, Answer.andThen_ok, List.foldl_append, List.foldl_cons, List.foldl_nil, hl.call]

end Telling

/-! ## The operations -/

namespace Resolver

variable {σ : Type} {l : Listener Unit σ} {hear : σ → Event → σ} (hl : l.Follows () hear)
  (r : Resolver) {source : Source} {table palette : String}

include hl

theorem resolvePalette?_ends (hguard : r.options.detectCycles = true ∨
      ¬ (r.tableFor source table).LeadsToCycle palette) (s : σ) :
    ∃ o, r.resolvePalette? source table palette l () s = some o := by
  obtain ⟨⟨v, s'⟩, htold⟩ := Option.isSome_iff_exists.mp (Telling.palette_ends hl
    (w := r.setting table (r.tableFor source table)) hguard
    (r.options.lt_depth (r.tableFor source table).size) s)
  obtain ⟨o, ho, -⟩ := resolvePalette?_of_told htold
  exact ⟨o, ho⟩

theorem resolve?_ends (hguard : r.options.detectCycles = true ∨
      ∀ name ∈ (PreparedTable.ofSource source table).names,
        ¬ (PreparedTable.ofSource source table).LeadsToCycle name) (s : σ) :
    ∃ o, r.resolve? source table l () s = some o := by
  cases hdefs : source table with
  | none => exact ⟨_, r.resolve?_none l () s hdefs⟩
  | some defs =>
    have htable : PreparedTable.ofSource source table = .ofDefs defs := by
      rw [PreparedTable.ofSource, hdefs]
    rw [htable] at hguard
    obtain ⟨⟨v, s'⟩, htold⟩ := Option.isSome_iff_exists.mp (Telling.whole_ends hl
      (w := r.setting table (.ofDefs defs)) hguard
      (r.options.lt_depth (PreparedTable.ofDefs defs).size) s)
    obtain ⟨o, ho, -⟩ := resolve?_of_told hdefs htold
    exact ⟨o, ho⟩

theorem resolvePalette?_of_grounded (hg : (r.tableFor source table).Grounded palette) (s : σ) :
    ∃ o es, r.resolvePalette? source table palette l () s = some o ∧ o.result = .ok () ∧
      PaletteTrace (r.setting table (r.tableFor source table)).detected palette es (.ok ()) ∧
      o.state = es.foldl hear s := by
  obtain ⟨es, hes, htold⟩ := Telling.palette_of_grounded hl
    (w := r.setting table (r.tableFor source table)) hg
    (r.options.lt_depth (r.tableFor source table).size) s
  obtain ⟨o, ho, hok, hstate⟩ := resolvePalette?_of_told htold
  exact ⟨o, es, ho, hok, hes, hstate⟩

theorem resolvePalette?_ok_iff {s : σ} {o : Outcome σ Unit}
    (h : r.resolvePalette? source table palette l () s = some o) :
    o.result = .ok () ↔ (r.tableFor source table).Grounded palette := by
  constructor
  · intro hok
    obtain ⟨es, hes, -⟩ := resolvePalette?_trace hl h
    rw [hok] at hes
    exact hes.grounded
  · intro hg
    obtain ⟨o', -, ho', hok, -⟩ := resolvePalette?_of_grounded hl r hg s
    obtain rfl := Option.some.inj (h.symm.trans ho')
    exact hok

theorem resolve?_of_grounded {defs : PaletteDefs} (hdefs : source table = some defs)
    (hg : ∀ name ∈ (PreparedTable.ofDefs defs).names, (PreparedTable.ofDefs defs).Grounded name)
    (s : σ) :
    ∃ o es, r.resolve? source table l () s = some o ∧ o.result = .ok true ∧
      PalettesTrace (r.setting table (.ofDefs defs)).detected (PreparedTable.ofDefs defs).names es
        (.ok ()) ∧
      o.state = (es ++ [Event.call .finish]).foldl hear s := by
  obtain ⟨es, hes, htold⟩ := Telling.whole_of_grounded hl
    (w := r.setting table (.ofDefs defs)) hg
    (r.options.lt_depth (PreparedTable.ofDefs defs).size) s
  obtain ⟨o, ho, hok, hstate⟩ := resolve?_of_told hdefs htold
  exact ⟨o, es, ho, hok, hes, hstate⟩

theorem resolve?_ok_iff {defs : PaletteDefs} (hdefs : source table = some defs) {s : σ}
    {o : Outcome σ Bool} (h : r.resolve? source table l () s = some o) :
    o.result = .ok true ↔
      ∀ name ∈ (PreparedTable.ofDefs defs).names, (PreparedTable.ofDefs defs).Grounded name := by
  constructor
  · intro hok
    obtain ⟨es, v, hes, hresult, -⟩ := resolve?_trace hl hdefs h
    cases hes with
    | stopped => exact absurd (hresult.symm.trans hok) (by simp [Except.map])
    | told hnames => exact hnames.grounded rfl
  · intro hg
    obtain ⟨o', -, ho', hok, -⟩ := resolve?_of_grounded hl r hdefs hg s
    obtain rfl := Option.some.inj (h.symm.trans ho')
    exact hok

end Resolver

namespace Resolver

variable (r : Resolver) {source : Source} {table : String} {defs : PaletteDefs}

/-- With cycle detection, recorder and builder come to an end on every table
that the source defines, and they succeed exactly if the graph allows it. -/
theorem resolves_iff_grounded (hdetect : r.options.detectCycles = true)
    (hdefs : source table = some defs) :
    ((∃ o, r.resolve? source table (Recorder.listener true) () #[] = some o ∧
        (o.result = .ok true ↔
          (∀ p ∈ (PreparedTable.ofDefs defs).names, ∀ q,
            (PreparedTable.ofDefs defs).Reaches p q → q ∈ (PreparedTable.ofDefs defs).names) ∧
          ∀ q, ¬ (PreparedTable.ofDefs defs).OnCycle q)) ∧
      ∀ b, ∃ o, r.resolve? source table Builder.listener () b = some o ∧
        (o.result = .ok true ↔
          (∀ p ∈ (PreparedTable.ofDefs defs).names, ∀ q,
            (PreparedTable.ofDefs defs).Reaches p q → q ∈ (PreparedTable.ofDefs defs).names) ∧
          ∀ q, ¬ (PreparedTable.ofDefs defs).OnCycle q)) ∧
    ∀ palette,
      (∃ o, r.resolvePalette? source table palette (Recorder.listener true) () #[] = some o ∧
        (o.result = .ok () ↔ (r.tableFor source table).Grounded palette)) ∧
      ∀ b, ∃ o, r.resolvePalette? source table palette Builder.listener () b = some o ∧
        (o.result = .ok () ↔ (r.tableFor source table).Grounded palette) := by
  rw [← PreparedTable.forall_grounded_iff]
  refine ⟨⟨?_, fun b => ?_⟩, fun palette => ⟨?_, fun b => ?_⟩⟩
  · obtain ⟨o, ho⟩ := Option.isSome_iff_exists.mp
      (r.resolve?_isSome source table (Recorder.listener true) () #[] hdetect)
    exact ⟨o, ho, resolve?_ok_iff Recorder.follows r hdefs ho⟩
  · obtain ⟨o, ho⟩ := Option.isSome_iff_exists.mp
      (r.resolve?_isSome source table Builder.listener () b hdetect)
    exact ⟨o, ho, resolve?_ok_iff Builder.follows r hdefs ho⟩
  · obtain ⟨o, ho⟩ := Option.isSome_iff_exists.mp
      (r.resolvePalette?_isSome source table (Recorder.listener true) () #[] hdetect palette)
    exact ⟨o, ho, resolvePalette?_ok_iff Recorder.follows r ho⟩
  · obtain ⟨o, ho⟩ := Option.isSome_iff_exists.mp
      (r.resolvePalette?_isSome source table Builder.listener () b hdetect palette)
    exact ⟨o, ho, resolvePalette?_ok_iff Builder.follows r ho⟩

/-- A diamond resolves, although a palette is reached and named several times. -/
theorem diamond_resolves :
    (∃ o, ({} : Resolver).resolve? (fun _ => some PreparedTable.diamond) "shop"
        (Recorder.listener true) () #[] = some o ∧ o.result = .ok true) ∧
      ∃ o, ({} : Resolver).resolvePalette? (fun _ => some PreparedTable.diamond) "shop" "tip"
        Builder.listener () {} = some o ∧ o.result = .ok () := by
  obtain ⟨⟨⟨o, ho, hiff⟩, -⟩, hpalette⟩ := @resolves_iff_grounded {}
    (fun _ => some PreparedTable.diamond) "shop" PreparedTable.diamond rfl rfl
  obtain ⟨o', ho', hiff'⟩ := (hpalette "tip").2 {}
  refine ⟨⟨o, ho, hiff.mpr ?_⟩, o', ho', hiff'.mpr ?_⟩
  · exact PreparedTable.forall_grounded_iff.mp PreparedTable.diamond_grounded
  · exact PreparedTable.diamond_grounded "tip" (by decide +kernel)

end Resolver

end Palettes
