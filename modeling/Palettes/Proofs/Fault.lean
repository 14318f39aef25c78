import Palettes.Proofs.Conduct
import Palettes.Proofs.Trace

/-!
Errors say what is so. A listener may ask for a parent as often as it likes,
for itself or another, and may pass over what comes of it; as long as it makes
up no errors of its own, every error that an operation ends in, and every one
that comes out of a handle on the way, names a palette that is missing or a
chain of parents that runs into itself. To speak of the errors that come out of
handles, a listener is watched: that writes them down and changes nothing else.
-/
namespace Palettes

variable {ι σ : Type}

/-- A plan that reports no error but known ones and those its questions come to. -/
def Plan.Relays (known : ResolveError → Prop) : Plan ι σ → Prop
  | .conclude verdict _ => ∀ e, verdict = .error e → known e
  | .resolve _ _ next => ∀ v s, (next v s).Relays fun e => known e ∨ v = .error e

/-- A listener that makes up no errors. -/
def Listener.Relays (l : Listener ι σ) : Prop :=
  ∀ i h s, (l.inherit i h s).Relays fun _ => False

theorem Listener.Follows.relays {l : Listener Unit σ} {hear : σ → Event → σ}
    (hl : l.Follows () hear) : l.Relays := by
  intro i h s
  rw [hl.inherit]
  intro v s' e he
  exact .inr he

/-! ## Watched listeners -/

structure Watched (σ : Type) where
  state : σ
  /-- The palette started last. -/
  top : Option String := none
  /-- The errors that handles came to, each with the palette started last at the time. -/
  faults : List (Option String × ResolveError) := []

/-- Write down what a handle came to. -/
def Watched.faultsWith (w : Watched σ) : Verdict → List (Option String × ResolveError)
  | .ok _ => w.faults
  | .error e => w.faults ++ [(w.top, e)]

def Plan.watched : Plan ι σ → Option String → List (Option String × ResolveError) →
    Plan ι (Watched σ)
  | .conclude verdict state, top, faults => .conclude verdict ⟨state, top, faults⟩
  | .resolve target state next, top, faults =>
    .resolve target ⟨state, top, faults⟩ fun v w =>
      (next v w.state).watched w.top (w.faultsWith v)

def Listener.watched (l : Listener ι σ) : Listener ι (Watched σ) where
  receive i c w :=
    { state := l.receive i c w.state
      top := match c with
        | .start _ palette => some palette
        | _ => w.top
      faults := w.faults }
  remarks i c w := l.remarks i c w.state
  inherit i h w := (l.inherit i h w.state).watched w.top w.faults

/-- Watching changes nothing. -/
theorem Listener.watched_over (l : Listener ι σ) : l.watched.Over Watched.state l := by
  have hplan (plan : Plan ι σ) (top : Option String)
      (faults : List (Option String × ResolveError)) :
      Plan.Mirrors Eq Watched.state (plan.watched top faults) plan := by
    induction plan generalizing top faults with
    | conclude verdict state => exact .conclude verdict _
    | resolve target state next ih => exact .resolve _ rfl fun v w => ih v w.state _ _
  exact Listener.over_of (fun _ _ _ => rfl) fun i h w =>
    hplan (l.inherit i h w.state) w.top w.faults

/-- While `top` is told, all that was written down is as it should be. -/
def Watched.Clean (P : Option String × ResolveError → Prop) (top : String) (w : Watched σ) :
    Prop := w.top = some top ∧ ∀ x ∈ w.faults, P x

theorem Plan.watched_safe {P : Option String × ResolveError → Prop} {top : String}
    {Good : ResolveError → Prop} (hP : ∀ e, Good e → P (some top, e)) (plan : Plan ι σ)
    {known : ResolveError → Prop} (hknown : ∀ e, known e → Good e) (hplan : plan.Relays known)
    {faults : List (Option String × ResolveError)} (hfaults : ∀ x ∈ faults, P x) :
    (plan.watched (some top) faults).Safe (Watched.Clean P top) Good := by
  induction plan generalizing known faults with
  | conclude verdict state => exact ⟨⟨rfl, hfaults⟩, fun e he => hknown e (hplan e he)⟩
  | resolve target state next ih =>
    refine ⟨⟨rfl, hfaults⟩, ?_⟩
    rintro v w ⟨htop, hw⟩ hv
    change ((next v w.state).watched w.top (w.faultsWith v)).Safe (Watched.Clean P top) Good
    rw [htop]
    refine ih v w.state (fun e he => he.elim (hknown e) (hv e)) (hplan v w.state) ?_
    cases v with
    | ok _ => exact hw
    | error e =>
      intro x hx
      rcases List.mem_append.mp hx with hx | hx
      · exact hw x hx
      · obtain rfl := List.mem_singleton.mp hx
        rw [htop]
        exact hP e (hv e rfl)

theorem Listener.Relays.watched_safe {l : Listener ι σ} (hl : l.Relays)
    {P : Option String × ResolveError → Prop} {top : String} {Good : ResolveError → Prop}
    (hP : ∀ e, Good e → P (some top, e)) : l.watched.Safe (Watched.Clean P top) Good where
  content i c w hc hw := by
    cases c with
    | legend e => exact hw
    | field e => exact hw
    | start table palette => exact hc.elim
    | finish => exact hc.elim
  inherit i h w hw := by
    have hsafe := (l.inherit i h w.state).watched_safe hP (fun _ h => h.elim) (hl i h w.state) hw.2
    rw [← hw.1] at hsafe
    exact hsafe

namespace Telling

variable {w : Setting} {l : Listener ι σ}

/-- What was written down is genuine for a palette of the table. -/
def GenuineIn (w : Setting) (x : Option String × ResolveError) : Prop :=
  ∃ top ∈ w.prepared.names, x.1 = some top ∧ w.prepared.Genuine w.table top x.2

theorem palette_watched (hl : l.Relays) {depth : Nat} {name : String} {i : ι} {s : σ}
    {v : Verdict} {s' : Watched σ}
    (h : Telling.palette ⟨w, l.watched⟩ depth name i { state := s } = some (v, s')) :
    (∀ e, v = .error e → w.prepared.Genuine w.table name e) ∧
      ∀ x ∈ s'.faults, x.1 = some name ∧ w.prepared.Genuine w.table name x.2 := by
  have hsafe : l.watched.Safe
      (Watched.Clean (fun x => x.1 = some name ∧ w.prepared.Genuine w.table name x.2) name)
      (w.prepared.Genuine w.table name) :=
    hl.watched_safe fun e he => ⟨rfl, he⟩
  obtain ⟨hmissing, rfl, rfl⟩ | ⟨-, hclean, hgood⟩ :=
    palette_safe hsafe (fun e he => he) ⟨rfl, by simp [Listener.watched]⟩ h
  · refine ⟨fun e he => ?_, by simp⟩
    cases he
    exact ⟨rfl, hmissing, .inl rfl⟩
  · exact ⟨hgood, hclean.2⟩

/-- The induction is on the palettes; what is kept between them is what was
written down, and the palette started last is the one that failed. -/
theorem palettes_watched (hl : l.Relays) {depth : Nat} {i : ι} {names : List String}
    (hnames : ∀ name ∈ names, name ∈ w.prepared.names) {s s' : Watched σ} {v : Verdict}
    (hs : ∀ x ∈ s.faults, GenuineIn w x)
    (h : Telling.palettes ⟨w, l.watched⟩ depth i names s = some (v, s')) :
    (∀ e, v = .error e → GenuineIn w (s'.top, e)) ∧ ∀ x ∈ s'.faults, GenuineIn w x := by
  induction names generalizing s with
  | nil =>
    cases h
    exact ⟨by simp, hs⟩
  | cons name names ih =>
    have hname := hnames name List.mem_cons_self
    have hsafe : l.watched.Safe (Watched.Clean (GenuineIn w) name)
        (w.prepared.Genuine w.table name) :=
      hl.watched_safe fun e he => ⟨name, hname, rfl, he⟩
    have htold {v₁ : Verdict} {s₁ : Watched σ}
        (h₁ : Telling.palette ⟨w, l.watched⟩ depth name i s = some (v₁, s₁)) :
        Watched.Clean (GenuineIn w) name s₁ ∧
          ∀ e, v₁ = .error e → w.prepared.Genuine w.table name e := by
      obtain ⟨hmissing, -, -⟩ | ⟨-, hkept⟩ :=
        palette_safe hsafe (fun e he => he) ⟨rfl, hs⟩ h₁
      · exact absurd hname hmissing
      · exact hkept
    obtain ⟨e, hfirst, rfl⟩ | ⟨s₁, hfirst, hafter⟩ := Answer.andThen_eq_some_iff.mp h
    · obtain ⟨hclean, hgood⟩ := htold hfirst
      exact ⟨fun e he => ⟨name, hname, hclean.1, hgood e he⟩, hclean.2⟩
    · exact ih (fun n hn => hnames n (List.mem_cons_of_mem _ hn)) (htold hfirst).1.2 hafter

theorem whole_watched (hl : l.Relays) {depth : Nat} {i : ι} {s s' : Watched σ} {v : Verdict}
    (hs : ∀ x ∈ s.faults, GenuineIn w x)
    (h : Telling.whole ⟨w, l.watched⟩ depth i s = some (v, s')) :
    (∀ e, v = .error e → GenuineIn w (s'.top, e)) ∧ ∀ x ∈ s'.faults, GenuineIn w x := by
  obtain ⟨e, hnames, rfl⟩ | ⟨s₁, hnames, hfinish⟩ := Answer.andThen_eq_some_iff.mp h
  · exact palettes_watched hl (fun name hn => hn) hs hnames
  · cases hfinish
    exact ⟨by simp, (palettes_watched hl (fun name hn => hn) hs hnames).2⟩

end Telling

/-! ## Where a recording ends -/

/-- The name that an error is about. -/
def ResolveError.offender? : ResolveError → Option String
  | .undefinedPalette _ palette => some palette
  | .cyclicInheritance chain => chain.getLast?

/-- A recording that was broken off at the announcement of the offending name. -/
structure BreaksOffAt (e : ResolveError) (events : List Event) : Prop where
  unfinished : .call .finish ∉ events
  last : ∃ q, e.offender? = some q ∧ events.getLast? = some (.inherit q)

variable {w : Setting} {lineage parents names : List String} {name : String} {es : List Event}
  {v : Verdict} {e : ResolveError}

theorem PreparedPalette.finish_not_mem_events (p : PreparedPalette) (ancestor : Bool) :
    .call .finish ∉ p.events ancestor := by
  intro h
  obtain ⟨c, hc, heq⟩ := List.mem_map.mp h
  cases heq
  exact p.isContent_of_mem hc

theorem Trace.unfinished (h : Trace w lineage parents es v) : .call .finish ∉ es := by
  induction h with
  | done => simp
  | undefined => simp
  | cyclic => simp
  | stopped _ _ _ ih => simpa using ih
  | told _ _ _ _ ihAbove ihRest =>
    simp [ihAbove, ihRest, PreparedPalette.finish_not_mem_events]

theorem Trace.last (h : Trace w lineage parents es (.error e)) :
    ∃ q, e.offender? = some q ∧ es.getLast? = some (.inherit q) := by
  generalize hv : (.error e : Verdict) = v at h
  induction h with
  | done => cases hv
  | @undefined _ _ q _ => cases hv; exact ⟨q, rfl, rfl⟩
  | @cyclic lineage _ q _ _ _ _ => cases hv; exact ⟨q, by simp [ResolveError.offender?], rfl⟩
  | stopped _ _ _ ih =>
    cases hv
    obtain ⟨q, hq, hlast⟩ := ih rfl
    exact ⟨q, hq, by simp [List.getLast?_cons, hlast]⟩
  | told _ _ _ _ _ ih =>
    obtain ⟨q, hq, hlast⟩ := ih hv
    exact ⟨q, hq, by simp [List.getLast?_cons, List.getLast?_append, hlast]⟩

theorem PaletteTrace.unfinished (h : PaletteTrace w name es v) : .call .finish ∉ es := by
  cases h with
  | undefined => simp
  | stopped _ habove => simpa using habove.unfinished
  | told _ habove => simp [habove.unfinished, PreparedPalette.finish_not_mem_events]

/-- Only a palette that is missing itself leaves nothing behind. -/
theorem PaletteTrace.breaksOff (h : PaletteTrace w name es (.error e)) :
    (es = [] ∧ name ∉ w.prepared.names ∧ e = .undefinedPalette w.table name) ∨
      BreaksOffAt e es := by
  have hunfinished := h.unfinished
  cases h with
  | undefined hp => exact .inl ⟨rfl, by simp [w.prepared.mem_names_iff, hp], rfl⟩
  | stopped _ habove =>
    obtain ⟨q, hq, hlast⟩ := habove.last
    exact .inr ⟨hunfinished, q, hq, by simp [List.getLast?_cons, hlast]⟩

theorem PalettesTrace.breaksOff (hnames : ∀ name ∈ names, name ∈ w.prepared.names)
    (h : PalettesTrace w names es (.error e)) : BreaksOffAt e es := by
  generalize hv : (.error e : Verdict) = v at h
  induction h with
  | done => cases hv
  | stopped hname =>
    cases hv
    obtain ⟨-, hmissing, -⟩ | hbreaks := hname.breaksOff
    · exact absurd (hnames _ List.mem_cons_self) hmissing
    · exact hbreaks
  | told hname _ ih =>
    obtain ⟨hunfinished, q, hq, hlast⟩ :=
      ih (fun n hn => hnames n (List.mem_cons_of_mem _ hn)) hv
    exact ⟨by simp [hname.unfinished, hunfinished], q, hq, by
      simp [List.getLast?_append, hlast]⟩

/-! ## The operations -/

namespace Resolver

variable (r : Resolver) (source : Source) (table : String)

theorem resolvePalette?_watched {l : Listener ι σ} (hl : l.Relays) {i : ι} {s : σ}
    {palette : String} {o : Outcome (Watched σ) Unit}
    (h : r.resolvePalette? source table palette l.watched i { state := s } = some o) :
    (∀ e, o.result = .error e → (r.tableFor source table).Genuine table palette e) ∧
      ∀ x ∈ o.state.faults,
        x.1 = some palette ∧ (r.tableFor source table).Genuine table palette x.2 :=
  Telling.palette_watched hl (resolvePalette?_told h).1

theorem resolve?_watched {l : Listener ι σ} (hl : l.Relays) {i : ι} {s : σ}
    {o : Outcome (Watched σ) Bool}
    (h : r.resolve? source table l.watched i { state := s } = some o) :
    (∀ e, o.result = .error e →
      Telling.GenuineIn (r.setting table (.ofSource source table)) (o.state.top, e)) ∧
      ∀ x ∈ o.state.faults,
        Telling.GenuineIn (r.setting table (.ofSource source table)) x := by
  cases hdefs : source table with
  | none =>
    rw [resolve?_none r _ _ _ hdefs] at h
    cases h
    exact ⟨by simp, by simp⟩
  | some defs =>
    have ht : PreparedTable.ofSource source table = .ofDefs defs := by
      simp [PreparedTable.ofSource, hdefs]
    obtain ⟨v, htold, hresult, -⟩ := resolve?_told hdefs h
    obtain ⟨herror, hfaults⟩ := Telling.whole_watched hl (by simp) htold
    rw [ht]
    refine ⟨fun e he => ?_, hfaults⟩
    rw [hresult] at he
    cases v with
    | ok _ => cases he
    | error e' => cases he; exact herror e rfl

theorem resolve?_breaksOff {o : Outcome Recorder.Recording Bool} {e : ResolveError}
    (h : r.resolve? source table (Recorder.listener true) () #[] = some o)
    (he : o.result = .error e) : BreaksOffAt e o.state.toList := by
  cases hdefs : source table with
  | none =>
    rw [resolve?_none r _ _ _ hdefs] at h
    cases h
    cases he
  | some defs =>
    obtain ⟨es, v, hes, hresult, hstate⟩ := resolve?_trace Recorder.follows hdefs h
    cases hes with
    | told => exact absurd (hresult.symm.trans he) (by simp [Except.map])
    | stopped hnames =>
      have hsame := hresult.symm.trans he
      cases hsame
      simpa [hstate] using hnames.breaksOff (by simp [setting])

/-- Errors that come out of an operation, or out of a handle while it runs, are
genuine, and a recording of a failed operation stops at the offending name. -/
theorem errors_are_genuine (l : Listener ι σ) (hl : l.Relays) (i : ι) (s : σ) :
    (∀ palette o, r.resolvePalette? source table palette l i s = some o →
      ∃ seen, r.resolvePalette? source table palette l.watched i { state := s } = some seen ∧
        seen.result = o.result ∧ seen.state.state = o.state ∧
        (∀ e, o.result = .error e → (r.tableFor source table).Genuine table palette e) ∧
        ∀ x ∈ seen.state.faults,
          x.1 = some palette ∧ (r.tableFor source table).Genuine table palette x.2) ∧
    (∀ o, r.resolve? source table l i s = some o →
      ∃ seen, r.resolve? source table l.watched i { state := s } = some seen ∧
        seen.result = o.result ∧ seen.state.state = o.state ∧
        (∀ e, o.result = .error e → ∃ top ∈ (PreparedTable.ofSource source table).names,
          seen.state.top = some top ∧
            (PreparedTable.ofSource source table).Genuine table top e) ∧
        ∀ x ∈ seen.state.faults, ∃ top ∈ (PreparedTable.ofSource source table).names,
          x.1 = some top ∧ (PreparedTable.ofSource source table).Genuine table top x.2) ∧
    (∀ palette o e,
      r.resolvePalette? source table palette (Recorder.listener true) () #[] = some o →
        o.result = .error e →
        (o.state = #[] ∧ e = .undefinedPalette table palette) ∨ BreaksOffAt e o.state.toList) ∧
    ∀ o e, r.resolve? source table (Recorder.listener true) () #[] = some o →
      o.result = .error e → BreaksOffAt e o.state.toList := by
  refine ⟨?_, ?_, ?_, ?_⟩
  · intro palette o ho
    obtain ⟨seen, hseen, hresult, hstate⟩ :=
      resolvePalette?_refined l.watched_over (s := { state := s }) ho
    obtain ⟨hgenuine, hfaults⟩ := resolvePalette?_watched r source table hl hseen
    exact ⟨seen, hseen, hresult, hstate, fun e he => hgenuine e (hresult.trans he), hfaults⟩
  · intro o ho
    obtain ⟨seen, hseen, hresult, hstate⟩ :=
      resolve?_refined l.watched_over (s := { state := s }) ho
    obtain ⟨hgenuine, hfaults⟩ := resolve?_watched r source table hl hseen
    exact ⟨seen, hseen, hresult, hstate, fun e he => hgenuine e (hresult.trans he), hfaults⟩
  · intro palette o e ho he
    obtain ⟨es, hes, hstate⟩ := resolvePalette?_trace Recorder.follows ho
    rw [he] at hes
    obtain ⟨rfl, -, herror⟩ | hbreaks := hes.breaksOff
    · exact .inl ⟨hstate, herror⟩
    · exact .inr (by simpa [hstate] using hbreaks)
  · intro o e ho he
    exact resolve?_breaksOff r source table ho he

/-- A cycle is reported as the chain that it is, right where it closes. -/
theorem knot_faults :
    ∃ o, ({} : Resolver).resolvePalette? (fun _ => some PreparedTable.knot) "shop" "one"
        (Recorder.listener true) () #[] = some o ∧
      o.result = .error (.cyclicInheritance ["one", "two", "one"]) ∧
      (PreparedTable.ofDefs PreparedTable.knot).Lasso "one" ["one", "two", "one"] ∧
      BreaksOffAt (.cyclicInheritance ["one", "two", "one"]) o.state.toList := by
  obtain ⟨hpalette, -, hbreaks, -⟩ := errors_are_genuine {} (fun _ => some PreparedTable.knot)
    "shop" (Recorder.listener true) Recorder.follows.relays () #[]
  have hresult : (({} : Resolver).resolvePalette? (fun _ => some PreparedTable.knot) "shop" "one"
      (Recorder.listener true) () #[]).map (·.result) =
        some (.error (.cyclicInheritance ["one", "two", "one"])) := by rfl
  obtain ⟨o, ho, herror⟩ := Option.map_eq_some_iff.mp hresult
  obtain ⟨-, -, -, -, hgenuine, -⟩ := hpalette "one" o ho
  refine ⟨o, ho, herror, hgenuine _ herror, ?_⟩
  obtain ⟨-, hundefined⟩ | hbreak := hbreaks "one" o _ ho herror
  · cases hundefined
  · exact hbreak

end Resolver

end Palettes
