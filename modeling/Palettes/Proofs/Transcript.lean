import Palettes.Proofs.Recording

/-!
What listeners are told, and what comes of their handles. A listener is
transcribed to speak of it: every call is written down, and every parent with
the attempts at its handle and with what each of them told. Outside of handles
a listener hears the palettes as if no parent were followed, up to the first
parent that it refuses. An attempt either tells nothing, since the parent is
missing or makes a cycle, or it tells the parent's body, and of attempts at one
handle none has an effect on the others, however they end.
-/
namespace Palettes

variable {ι κ σ τ : Type}

/-! ## Transcripts -/

mutual

/-- What was told to a listener: a call, or a parent, with the attempts at its
handle and the verdict that the listener came to. -/
inductive Heard (ι σ : Type) where
  | call (hearer : ι) (call : Call)
  | inherit (hearer : ι) (handle : Handle) (attempts : List (Attempt ι σ)) (verdict : Verdict)

/-- One question that a plan asked, what was told to all listeners in the course
of it, and what came of it. -/
structure Attempt (ι σ : Type) where
  target : ι
  before : σ
  heard : List (Heard ι σ)
  verdict : Verdict
  after : σ

end

/-- A state of listeners, and all that was told so far outside of the handles
that are open. -/
structure Transcribed (ι σ : Type) where
  state : σ
  heard : List (Heard ι σ) := []

/-- Write down the attempts of a plan, each with a transcript of its own, and
then the parent at which they were made. -/
def Plan.transcribed (i : ι) (h : Handle) (heard : List (Heard ι σ)) :
    Plan ι σ → List (Attempt ι σ) → Plan ι (Transcribed ι σ)
  | .conclude verdict state, attempts =>
    .conclude verdict ⟨state, heard ++ [.inherit i h attempts verdict]⟩
  | .resolve target state next, attempts =>
    .resolve target { state } fun v x =>
      (next v x.state).transcribed i h heard (attempts ++ [⟨target, state, x.heard, v, x.state⟩])

def Listener.transcribed (l : Listener ι σ) : Listener ι (Transcribed ι σ) where
  receive i c x := ⟨l.receive i c x.state, x.heard ++ [.call i c]⟩
  remarks i c x := l.remarks i c x.state
  inherit i h x := (l.inherit i h x.state).transcribed i h x.heard []

/-- Transcribing changes nothing. -/
theorem Listener.transcribed_over (l : Listener ι σ) : l.transcribed.Over Transcribed.state l := by
  have hplan (i : ι) (h : Handle) (heard : List (Heard ι σ)) (plan : Plan ι σ)
      (attempts : List (Attempt ι σ)) :
      Plan.Mirrors Eq Transcribed.state (plan.transcribed i h heard attempts) plan := by
    induction plan generalizing attempts with
    | conclude verdict state => exact .conclude verdict _
    | resolve target state next ih => exact .resolve _ rfl fun v y => ih v y.state _
  exact Listener.over_of (fun _ _ _ => rfl) fun i h x =>
    hplan i h x.heard (l.inherit i h x.state) []

/-- A listener hears events, up to the first parent that it refuses. The verdict
is its own on that parent. -/
inductive Hears (i : ι) (table : String) : List Event → List (Heard ι σ) → Verdict → Prop
  | done : Hears i table [] [] (.ok ())
  | call {c : Call} {es : List Event} {heard : List (Heard ι σ)} {v : Verdict} :
    Hears i table es heard v → Hears i table (.call c :: es) (.call i c :: heard) v
  | accepted {q : String} {es : List Event} {attempts : List (Attempt ι σ)}
      {heard : List (Heard ι σ)} {v : Verdict} :
    Hears i table es heard v →
      Hears i table (.inherit q :: es) (.inherit i ⟨table, q⟩ attempts (.ok ()) :: heard) v
  | refused {q : String} {es : List Event} {attempts : List (Attempt ι σ)} {e : ResolveError} :
    Hears i table (.inherit q :: es) [.inherit i ⟨table, q⟩ attempts (.error e)] (.error e)

/-- A handle was given to a listener at some depth of a transcript, and these
were the attempts at it. -/
inductive Announced (h : Handle) (attempts : List (Attempt ι σ)) : List (Heard ι σ) → Prop
  | here {heard : List (Heard ι σ)} {i : ι} {v : Verdict} :
    .inherit i h attempts v ∈ heard → Announced h attempts heard
  | within {heard : List (Heard ι σ)} {i : ι} {h' : Handle} {attempts' : List (Attempt ι σ)}
      {v : Verdict} {a : Attempt ι σ} :
    .inherit i h' attempts' v ∈ heard → a ∈ attempts' → Announced h attempts a.heard →
      Announced h attempts heard

section Hears

variable {i : ι} {table : String} {es es' : List Event} {heard heard' : List (Heard ι σ)}
  {v : Verdict}

theorem Hears.append (h : Hears i table es heard (.ok ())) (h' : Hears i table es' heard' v) :
    Hears i table (es ++ es') (heard ++ heard') v := by
  generalize hv : (.ok () : Verdict) = v' at h
  induction h with
  | done => exact h'
  | call _ ih => exact .call (ih hv)
  | accepted _ ih => exact .accepted (ih hv)
  | refused => cases hv

/-- What comes after a parent that is refused is not heard. -/
theorem Hears.cut {e : ResolveError} (h : Hears i table es heard (.error e)) (es' : List Event) :
    Hears i table (es ++ es') heard (.error e) := by
  generalize hv : (.error e : Verdict) = v at h ⊢
  induction h with
  | done => cases hv
  | call _ ih => exact .call (ih hv)
  | accepted _ ih => exact .accepted (ih hv)
  | refused => exact .refused

theorem Hears.calls (calls : List Call) :
    Hears i table (calls.map .call) (calls.map (Heard.call (σ := σ) i)) (.ok ()) := by
  induction calls with
  | nil => exact .done
  | cons c calls ih => exact .call ih

theorem Hears.mem_of_call (h : Hears i table es heard v) {j : ι} {c : Call}
    (hc : .call j c ∈ heard) : j = i ∧ .call c ∈ es := by
  induction h with
  | done => cases hc
  | call _ ih =>
    rcases List.mem_cons.mp hc with hc | hc
    · cases hc
      exact ⟨rfl, List.mem_cons_self⟩
    · exact ⟨(ih hc).1, List.mem_cons_of_mem _ (ih hc).2⟩
  | accepted _ ih =>
    rcases List.mem_cons.mp hc with hc | hc
    · cases hc
    · exact ⟨(ih hc).1, List.mem_cons_of_mem _ (ih hc).2⟩
  | refused => simp at hc

end Hears

/-! ## Attempts are answers -/

/-- The attempts at the handles that were given out at the top of a transcript
are answers to the questions of the table. -/
def AnsweredBy (table : String)
    (ask : String → ι → Transcribed ι σ → Answer (Transcribed ι σ)) (heard : List (Heard ι σ)) :
    Prop :=
  ∀ i h attempts v, .inherit i h attempts v ∈ heard → h.table = table ∧
    ∀ a ∈ attempts,
      ask h.parent a.target { state := a.before } = some (a.verdict, ⟨a.after, a.heard⟩)

theorem AnsweredBy.append {table : String}
    {ask : String → ι → Transcribed ι σ → Answer (Transcribed ι σ)}
    {heard heard' : List (Heard ι σ)}
    (h : AnsweredBy table ask heard) (h' : AnsweredBy table ask heard') :
    AnsweredBy table ask (heard ++ heard') := by
  intro i handle attempts v hmem
  rcases List.mem_append.mp hmem with hmem | hmem
  · exact h i handle attempts v hmem
  · exact h' i handle attempts v hmem

theorem Plan.carryOut_transcribed {ask : ι → Transcribed ι σ → Answer (Transcribed ι σ)} {i : ι}
    {h : Handle} {heard : List (Heard ι σ)} {plan : Plan ι σ} {made : List (Attempt ι σ)}
    {v : Verdict} {x : Transcribed ι σ}
    (hx : (plan.transcribed i h heard made).carryOut ask = some (v, x)) :
    ∃ attempts, x.heard = heard ++ [.inherit i h (made ++ attempts) v] ∧
      ∀ a ∈ attempts,
        ask a.target { state := a.before } = some (a.verdict, ⟨a.after, a.heard⟩) := by
  induction plan generalizing made with
  | conclude verdict state =>
    cases hx
    exact ⟨[], by simp, by simp⟩
  | resolve target state next ih =>
    rw [transcribed, carryOut] at hx
    cases ha : ask target { state } with
    | none => simp [ha] at hx
    | some answer =>
      obtain ⟨v₁, x₁⟩ := answer
      simp only [ha] at hx
      obtain ⟨attempts, hheard, hattempts⟩ := ih v₁ x₁.state hx
      refine ⟨⟨target, state, x₁.heard, v₁, x₁.state⟩ :: attempts, by simpa using hheard, ?_⟩
      intro a ha'
      rcases List.mem_cons.mp ha' with rfl | ha'
      · exact ha
      · exact hattempts a ha'

namespace Telling

variable {w : Setting} {l : Listener ι σ} {i : ι} {v : Verdict} {x x' : Transcribed ι σ}
  {ask : String → ι → Transcribed ι σ → Answer (Transcribed ι σ)}

theorem receiveAll_transcribed (i : ι) (calls : List Call) (x : Transcribed ι σ) :
    (l.transcribed.receiveAll i calls x).heard = x.heard ++ calls.map (.call i) := by
  induction calls generalizing x with
  | nil => simp [Listener.receiveAll]
  | cons c calls ih =>
    have hrest := ih (l.transcribed.receive i c x)
    rw [List.map_cons, List.append_cons]
    exact hrest

theorem parents_transcribed {parents : List String}
    (h : Telling.parents ⟨w, l.transcribed⟩ ask i parents x = some (v, x')) :
    ∃ heard, x'.heard = x.heard ++ heard ∧ Hears i w.table (parents.map .inherit) heard v ∧
      AnsweredBy w.table ask heard := by
  induction parents generalizing x with
  | nil =>
    cases h
    exact ⟨[], by simp, .done, by simp [AnsweredBy]⟩
  | cons q parents ih =>
    have hfirst {v₁ : Verdict} {x₁ : Transcribed ι σ}
        (h₁ : (l.transcribed.inherit i ⟨w.table, q⟩ x).carryOut (ask q) = some (v₁, x₁)) :
        ∃ attempts, x₁.heard = x.heard ++ [.inherit i ⟨w.table, q⟩ attempts v₁] ∧
          AnsweredBy w.table ask [.inherit i ⟨w.table, q⟩ attempts v₁] := by
      obtain ⟨attempts, hheard, hattempts⟩ := Plan.carryOut_transcribed h₁
      refine ⟨attempts, hheard, ?_⟩
      intro j h attempts' v' hmem
      cases List.mem_singleton.mp hmem
      exact ⟨rfl, hattempts⟩
    obtain ⟨e, hplan, rfl⟩ | ⟨x₁, hplan, hrest⟩ := Answer.andThen_eq_some_iff.mp h
    · obtain ⟨attempts, hheard, hanswered⟩ := hfirst hplan
      exact ⟨_, hheard, .refused, hanswered⟩
    · obtain ⟨attempts, hheard, hanswered⟩ := hfirst hplan
      obtain ⟨rest, hheard', hhears, hanswered'⟩ := ih hrest
      refine ⟨_ :: rest, ?_, .accepted hhears, hanswered.append hanswered'⟩
      rw [hheard', hheard, List.append_assoc, List.singleton_append]

theorem body_transcribed {ancestor : Bool} {p : PreparedPalette}
    (h : Telling.body ⟨w, l.transcribed⟩ ask i ancestor p x = some (v, x')) :
    ∃ heard, x'.heard = x.heard ++ heard ∧
      Hears i w.table (p.parents.map .inherit ++ p.events ancestor) heard v ∧
      AnsweredBy w.table ask heard := by
  cases v with
  | error e =>
    obtain ⟨heard, hheard, hhears, hanswered⟩ := parents_transcribed (body_eq_error_iff.mp h)
    exact ⟨heard, hheard, hhears.cut _, hanswered⟩
  | ok _ =>
    obtain ⟨x₁, hparents, rfl⟩ := body_eq_ok_iff.mp h
    obtain ⟨heard, hheard, hhears, hanswered⟩ := parents_transcribed hparents
    refine ⟨heard ++ (p.calls ancestor).map (.call i), ?_, hhears.append (.calls _),
      hanswered.append (by simp [AnsweredBy])⟩
    rw [receiveAll_transcribed, hheard, List.append_assoc]

end Telling

/-! ## Attempts at one handle -/

/-- An attempt tells nothing, for a reason, or it tells the body of the parent to
its target and nothing else. -/
def Attempt.TellsBody (t : PreparedTable) (table parent : String) (a : Attempt ι σ) : Prop :=
  (a.heard = [] ∧ a.after = a.before ∧
    ((parent ∉ t.names ∧ a.verdict = .error (.undefinedPalette table parent)) ∨
      ∃ chain, a.verdict = .error (.cyclicInheritance chain))) ∨
  ∃ p, t.get? parent = some p ∧
    Hears a.target table (p.parents.map .inherit ++ p.events true) a.heard a.verdict ∧
    ∀ j c, .call j c ∈ a.heard → j = a.target ∧ c.IsContent

/-- One of the listeners acts on its own, as `m` does on its part of the state. -/
def Listener.Houses (l : Listener ι σ) (i : ι) (π : σ → τ) (m : Listener Unit τ) : Prop :=
  l.Mirrors (fun j _ => j = i) π m

/-- What holds of the attempts at one handle. Listeners that act on their own and
alike, and start from the same, come to the same in all attempts; so do new recorders. -/
structure Handle.Serves (t : PreparedTable) (table : String) (l : Listener ι σ) (h : Handle)
    (attempts : List (Attempt ι σ)) : Prop where
  bound : h.table = table
  tells : ∀ a ∈ attempts, a.TellsBody t table h.parent
  repeats : ∀ a ∈ attempts, ∀ b ∈ attempts, ∀ (τ : Type) (m : Listener Unit τ) (π π' : σ → τ),
    l.Houses a.target π m → l.Houses b.target π' m → π' b.before = π a.before →
      b.verdict = a.verdict ∧ π' b.after = π a.after

namespace Telling

variable {w : Setting} {l : Listener ι σ} {i : ι} {v : Verdict} {x x' : Transcribed ι σ}

theorem ancestor_transcribed {depth : Nat} {lineage : List String} {parent : String}
    {a : Attempt ι σ}
    (h : Telling.ancestor ⟨w, l.transcribed⟩ depth lineage parent a.target { state := a.before } =
      some (a.verdict, ⟨a.after, a.heard⟩)) :
    a.TellsBody w.prepared w.table parent ∧ ∃ depth' lineage',
      AnsweredBy w.table (Telling.ancestor ⟨w, l.transcribed⟩ depth' lineage') a.heard := by
  cases depth with
  | zero => cases h
  | succ depth =>
    cases hp : w.prepared.get? parent with
    | none =>
      rw [ancestor_undefined (t := ⟨w, l.transcribed⟩) hp] at h
      simp only [Option.some.injEq, Prod.mk.injEq, Transcribed.mk.injEq] at h
      obtain ⟨hv, hafter, hheard⟩ := h
      have hmissing : parent ∉ w.prepared.names := by simp [w.prepared.mem_names_iff, hp]
      exact ⟨.inl ⟨hheard.symm, hafter.symm, .inl ⟨hmissing, hv.symm⟩⟩, depth, lineage,
        by simp [AnsweredBy, ← hheard]⟩
    | some p =>
      by_cases hc : w.detectCycles = true ∧ parent ∈ lineage
      · rw [ancestor_cyclic (t := ⟨w, l.transcribed⟩) hp hc.1 hc.2] at h
        simp only [Option.some.injEq, Prod.mk.injEq, Transcribed.mk.injEq] at h
        obtain ⟨hv, hafter, hheard⟩ := h
        exact ⟨.inl ⟨hheard.symm, hafter.symm, .inr ⟨_, hv.symm⟩⟩, depth, lineage,
          by simp [AnsweredBy, ← hheard]⟩
      · rw [ancestor_told (t := ⟨w, l.transcribed⟩) hp hc] at h
        obtain ⟨heard, hheard, hhears, hanswered⟩ := body_transcribed h
        obtain rfl : a.heard = heard := hheard
        refine ⟨.inr ⟨p, hp, hhears, fun j c hmem => ?_⟩, _, _, hanswered⟩
        obtain ⟨hj, hc⟩ := hhears.mem_of_call hmem
        have hevent : .call c ∈ p.events true := by simpa using hc
        obtain ⟨c', hc', heq⟩ := List.mem_map.mp hevent
        cases heq
        exact ⟨hj, p.isContent_of_mem hc'⟩

/-- However deep a handle was given out, its attempts answer one question. The
induction goes down the transcript; on each level the attempt that leads on has
answers of its own. -/
theorem attempts_of_announced {depth : Nat} {lineage : List String} {heard : List (Heard ι σ)}
    (hanswered : AnsweredBy w.table (Telling.ancestor ⟨w, l.transcribed⟩ depth lineage) heard)
    {h : Handle} {attempts : List (Attempt ι σ)} (hh : Announced h attempts heard) :
    h.table = w.table ∧ ∃ depth' lineage', ∀ a ∈ attempts,
      Telling.ancestor ⟨w, l.transcribed⟩ depth' lineage' h.parent a.target { state := a.before } =
        some (a.verdict, ⟨a.after, a.heard⟩) := by
  induction hh generalizing depth lineage with
  | here hmem =>
    obtain ⟨htable, hattempts⟩ := hanswered _ _ _ _ hmem
    exact ⟨htable, depth, lineage, hattempts⟩
  | within hmem ha _ ih =>
    obtain ⟨-, depth', lineage', hbelow⟩ :=
      ancestor_transcribed ((hanswered _ _ _ _ hmem).2 _ ha)
    exact ih hbelow

theorem serves_of_announced {depth : Nat} {lineage : List String} {heard : List (Heard ι σ)}
    (hanswered : AnsweredBy w.table (Telling.ancestor ⟨w, l.transcribed⟩ depth lineage) heard)
    {h : Handle} {attempts : List (Attempt ι σ)} (hh : Announced h attempts heard) :
    h.Serves w.prepared w.table l attempts := by
  obtain ⟨htable, depth', lineage', hattempts⟩ := attempts_of_announced hanswered hh
  refine ⟨htable, fun a ha => (ancestor_transcribed (hattempts a ha)).1, ?_⟩
  intro a ha b hb τ m π π' hhouses hhouses' hbefore
  have hmirror {c : Attempt ι σ} (hc : c ∈ attempts) {ρ : σ → τ} (hρ : l.Houses c.target ρ m) :
      Telling.ancestor ⟨w, m⟩ depth' lineage' h.parent () (ρ c.before) =
        some (c.verdict, ρ c.after) := by
    have hover := ancestor_mirrored (w := w) l.transcribed_over (Eq.refl c.target) depth' lineage'
      h.parent { state := c.before }
    rw [hattempts c hc] at hover
    rw [← ancestor_mirrored hρ rfl, ← hover]
    rfl
  have hsame := (hmirror ha hhouses).symm.trans (hbefore ▸ hmirror hb hhouses')
  obtain ⟨hverdict, hafter⟩ := Prod.mk.inj (Option.some.inj hsame)
  exact ⟨hverdict.symm, hafter.symm⟩

end Telling

/-! ## Palettes and tables -/

/-- All handles that were given out serve their parents. -/
def Served (t : PreparedTable) (table : String) (l : Listener ι σ) (heard : List (Heard ι σ)) :
    Prop :=
  ∀ h attempts, Announced h attempts heard → h.Serves t table l attempts

theorem Announced.of_append {h : Handle} {attempts : List (Attempt ι σ)}
    {heard heard' : List (Heard ι σ)} (hh : Announced h attempts (heard ++ heard')) :
    Announced h attempts heard ∨ Announced h attempts heard' := by
  cases hh with
  | here hmem => exact (List.mem_append.mp hmem).imp .here .here
  | within hmem ha hbelow =>
    exact (List.mem_append.mp hmem).imp (.within · ha hbelow) (.within · ha hbelow)

theorem Served.append {t : PreparedTable} {table : String} {l : Listener ι σ}
    {heard heard' : List (Heard ι σ)} (h : Served t table l heard) (h' : Served t table l heard') :
    Served t table l (heard ++ heard') :=
  fun handle attempts hh => hh.of_append.elim (h handle attempts) (h' handle attempts)

/-- Where no parent was announced, no handle was given out. -/
theorem Served.calls {t : PreparedTable} {table : String} {l : Listener ι σ} (i : ι)
    (calls : List Call) : Served t table l (calls.map (.call i)) := by
  intro h attempts hh
  cases hh with
  | here hmem => simp at hmem
  | within hmem => simp at hmem

namespace Telling

variable {w : Setting} {l : Listener ι σ} {i : ι} {v : Verdict} {x x' : Transcribed ι σ}

theorem palette_transcribed {depth : Nat} {name : String}
    (h : Telling.palette ⟨w, l.transcribed⟩ depth name i x = some (v, x')) :
    ∃ heard, x'.heard = x.heard ++ heard ∧ Served w.prepared w.table l heard ∧
      ((heard = [] ∧ name ∉ w.prepared.names ∧ v = .error (.undefinedPalette w.table name)) ∨
        ∃ p, w.prepared.get? name = some p ∧
          Hears i w.table (p.flatEvents w.table name) heard v) := by
  cases depth with
  | zero => cases h
  | succ depth =>
    cases hp : w.prepared.get? name with
    | none =>
      rw [palette_undefined (t := ⟨w, l.transcribed⟩) hp] at h
      cases h
      exact ⟨[], by simp, .calls i [], .inl ⟨rfl, by simp [w.prepared.mem_names_iff, hp], rfl⟩⟩
    | some p =>
      rw [palette_told (t := ⟨w, l.transcribed⟩) hp] at h
      obtain ⟨heard, hheard, hhears, hanswered⟩ := body_transcribed h
      refine ⟨.call i (.start w.table name) :: heard, ?_, ?_, .inr ⟨p, rfl, .call hhears⟩⟩
      · rw [hheard, List.append_cons]
        rfl
      · exact Served.append (.calls i [.start w.table name])
          fun _ _ hh => serves_of_announced hanswered hh

/-- The induction is on the palettes; no palette hears of the handles of another. -/
theorem palettes_transcribed {depth : Nat} {entries : List (String × PreparedPalette)}
    (hentries : ∀ e ∈ entries, w.prepared.get? e.1 = some e.2)
    (h : Telling.palettes ⟨w, l.transcribed⟩ depth i (entries.map Prod.fst) x = some (v, x')) :
    ∃ heard, x'.heard = x.heard ++ heard ∧ Served w.prepared w.table l heard ∧
      Hears i w.table (entries.flatMap fun e => e.2.flatEvents w.table e.1) heard v := by
  induction entries generalizing x with
  | nil =>
    cases h
    exact ⟨[], by simp, .calls i [], .done⟩
  | cons e entries ih =>
    have hget := hentries e List.mem_cons_self
    have hfirst {v₁ : Verdict} {x₁ : Transcribed ι σ}
        (h₁ : Telling.palette ⟨w, l.transcribed⟩ depth e.1 i x = some (v₁, x₁)) :
        ∃ heard, x₁.heard = x.heard ++ heard ∧ Served w.prepared w.table l heard ∧
          Hears i w.table (e.2.flatEvents w.table e.1) heard v₁ := by
      obtain ⟨heard, hheard, hserved, ⟨-, hmissing, -⟩ | ⟨p, hp, hhears⟩⟩ := palette_transcribed h₁
      · exact absurd ((w.prepared.mem_names_iff e.1).mpr ⟨e.2, hget⟩) hmissing
      · obtain rfl : e.2 = p := Option.some.inj (hget.symm.trans hp)
        exact ⟨heard, hheard, hserved, hhears⟩
    rw [List.flatMap_cons]
    obtain ⟨error, hname, rfl⟩ | ⟨x₁, hname, hrest⟩ := Answer.andThen_eq_some_iff.mp h
    · obtain ⟨heard, hheard, hserved, hhears⟩ := hfirst hname
      exact ⟨heard, hheard, hserved, hhears.cut _⟩
    · obtain ⟨heard, hheard, hserved, hhears⟩ := hfirst hname
      obtain ⟨rest, hheard', hserved', hhears'⟩ :=
        ih (fun e' he' => hentries e' (List.mem_cons_of_mem _ he')) hrest
      exact ⟨heard ++ rest, by rw [hheard', hheard, List.append_assoc], hserved.append hserved',
        hhears.append hhears'⟩

theorem whole_transcribed {depth : Nat}
    (h : Telling.whole ⟨w, l.transcribed⟩ depth i x = some (v, x')) :
    ∃ heard, x'.heard = x.heard ++ heard ∧ Served w.prepared w.table l heard ∧
      Hears i w.table (w.prepared.flatEvents w.table ++ [.call .finish]) heard v := by
  have hentries : ∀ e ∈ w.prepared.palettes.entries, w.prepared.get? e.1 = some e.2 :=
    fun _ he => Listing.get?_of_mem he
  obtain ⟨e, hnames, rfl⟩ | ⟨x₁, hnames, hfinish⟩ := Answer.andThen_eq_some_iff.mp h
  · obtain ⟨heard, hheard, hserved, hhears⟩ := palettes_transcribed hentries hnames
    exact ⟨heard, hheard, hserved, hhears.cut _⟩
  · obtain ⟨heard, hheard, hserved, hhears⟩ := palettes_transcribed hentries hnames
    cases hfinish
    refine ⟨heard ++ [.call i .finish], ?_, hserved.append (.calls i [.finish]),
      hhears.append (.call .done)⟩
    rw [← List.append_assoc, ← hheard]
    rfl

end Telling

/-! ## The operations -/

namespace Resolver

variable (r : Resolver) (source : Source) (table : String)

/-- An operation on a transcribed listener comes to the same and leaves a transcript. -/
theorem resolvePalette?_transcript {l : Listener ι σ} {i : ι} {s : σ} {palette : String}
    {o : Outcome σ Unit} (h : r.resolvePalette? source table palette l i s = some o) :
    ∃ o', r.resolvePalette? source table palette l.transcribed i { state := s } = some o' ∧
      o'.shown = (o.result, ⟨o.state, o'.state.heard⟩) := by
  obtain ⟨o', ho', hresult, hstate⟩ :=
    resolvePalette?_refined l.transcribed_over (s := { state := s }) h
  exact ⟨o', ho', by rw [Outcome.shown, hresult, ← hstate]⟩

theorem resolve?_transcript {l : Listener ι σ} {i : ι} {s : σ} {o : Outcome σ Bool}
    (h : r.resolve? source table l i s = some o) :
    ∃ o', r.resolve? source table l.transcribed i { state := s } = some o' ∧
      o'.shown = (o.result, ⟨o.state, o'.state.heard⟩) := by
  obtain ⟨o', ho', hresult, hstate⟩ :=
    resolve?_refined l.transcribed_over (s := { state := s }) h
  exact ⟨o', ho', by rw [Outcome.shown, hresult, ← hstate]⟩

/-- Outside of handles a listener is told a table as one is that lets all
parents pass, up to the first parent that it refuses itself, and a palette
likewise. Every handle that is given out on the way, at any depth, is bound to
its table and parent; each attempt at it tells nothing or the parent's body, to
the listener it was made for, and attempts do not influence each other. -/
theorem told_as_written (l : Listener ι σ) (i : ι) (s : σ) :
    (∀ o, r.resolve? source table l i s = some o → ∃ heard,
      (r.resolve? source table l.transcribed i { state := s }).map Outcome.shown =
        some (o.result, ⟨o.state, heard⟩) ∧
      Served (.ofSource source table) table l heard ∧
      (source table = none → heard = []) ∧
      ∀ defs, source table = some defs → ∃ flat v,
        r.resolve? source table (Recorder.listener false) () #[] = some flat ∧
        flat.state.toList = (PreparedTable.ofDefs defs).flatEvents table ++ [.call .finish] ∧
        Hears i table flat.state.toList heard v ∧ o.result = v.map fun _ => true) ∧
    ∀ palette o, r.resolvePalette? source table palette l i s = some o → ∃ heard,
      (r.resolvePalette? source table palette l.transcribed i { state := s }).map Outcome.shown =
        some (o.result, ⟨o.state, heard⟩) ∧
      Served (r.tableFor source table) table l heard ∧
      ((heard = [] ∧ palette ∉ (r.tableFor source table).names ∧
          o.result = .error (.undefinedPalette table palette)) ∨
        ∃ p, (r.tableFor source table).get? palette = some p ∧
          Hears i table (p.flatEvents table palette) heard o.result) := by
  constructor
  · intro o ho
    obtain ⟨o', ho', hshown⟩ := resolve?_transcript r source table ho
    obtain ⟨hresult, -⟩ := Prod.mk.inj hshown
    refine ⟨o'.state.heard, by rw [ho', Option.map_some, hshown], ?_⟩
    cases hdefs : source table with
    | none =>
      rw [r.resolve?_none _ _ _ hdefs] at ho'
      cases ho'
      exact ⟨.calls i [], fun _ => rfl, by simp⟩
    | some defs =>
      have ht : PreparedTable.ofSource source table = .ofDefs defs := by
        simp [PreparedTable.ofSource, hdefs]
      obtain ⟨v, htold, hv, -⟩ := resolve?_told hdefs ho'
      obtain ⟨heard, hheard, hserved, hhears⟩ := Telling.whole_transcribed htold
      obtain rfl : o'.state.heard = heard := hheard
      obtain ⟨flat, hflat, -, hevents⟩ := resolve?_passed r source table hdefs
      refine ⟨ht ▸ hserved, by simp, fun defs' hdefs' => ?_⟩
      obtain rfl : defs = defs' := Option.some.inj hdefs'
      exact ⟨flat, v, hflat, hevents, hevents ▸ hhears, hresult.symm.trans hv⟩
  · intro palette o ho
    obtain ⟨o', ho', hshown⟩ := resolvePalette?_transcript r source table ho
    obtain ⟨hresult, -⟩ := Prod.mk.inj hshown
    obtain ⟨htold, -⟩ := resolvePalette?_told ho'
    obtain ⟨heard, hheard, hserved, hend⟩ := Telling.palette_transcribed htold
    obtain rfl : o'.state.heard = heard := hheard
    rw [hresult] at hend
    exact ⟨o'.state.heard, by rw [ho', Option.map_some, hshown], hserved, hend⟩

end Resolver

/-- A listener that has every parent told twice to a new recorder and passes
over what comes of it. The recorder is `true`. -/
def Listener.probing : Listener Bool Recorder.Recording where
  receive i c events := if i then events.push (.call c) else events
  inherit i h events :=
    if i then .resolve true (events.push (.inherit h.parent)) .conclude
    else .resolve true #[] fun _ _ => .resolve true #[] fun _ _ => .conclude (.ok ()) #[]

theorem Listener.probing_houses : probing.Houses true id (Recorder.listener true) where
  receive i k hi c s := by
    subst hi
    rfl
  inherit i k hi h s := by
    subst hi
    exact .resolve _ rfl fun v s => .conclude v s

/-- At a parent that makes a cycle two recorders in turn come to the same error
with the same recording, and all palettes are told in spite of it. -/
theorem Resolver.knot_is_told_as_written :
    ∃ o, ({} : Resolver).resolve? (fun _ => some PreparedTable.knot) "shop" Listener.probing false
        #[] = some o ∧ o.result = .ok true ∧
      ∃ a b rest, (({} : Resolver).resolve? (fun _ => some PreparedTable.knot) "shop"
          Listener.probing.transcribed false { state := #[] }).map (·.state.heard) =
            some (.call false (.start "shop" "one") ::
              .inherit false ⟨"shop", "two"⟩ [a, b] (.ok ()) :: rest) ∧
        a.verdict = .error (.cyclicInheritance ["one", "two", "one"]) ∧
        b.verdict = a.verdict ∧ b.after = a.after := by
  have hend : (({} : Resolver).resolve? (fun _ => some PreparedTable.knot) "shop"
      Listener.probing false #[]).map (·.result) = some (.ok true) := by rfl
  obtain ⟨o, ho, hok⟩ := Option.map_eq_some_iff.mp hend
  have htwo : ∃ a b rest, (({} : Resolver).resolve? (fun _ => some PreparedTable.knot) "shop"
      Listener.probing.transcribed false { state := #[] }).map (·.state.heard) =
        some (.call false (.start "shop" "one") ::
          .inherit false ⟨"shop", "two"⟩ [a, b] (.ok ()) :: rest) ∧
      (a.target = true ∧ a.before = #[] ∧
        a.verdict = .error (.cyclicInheritance ["one", "two", "one"])) ∧
      b.target = true ∧ b.before = #[] := ⟨_, _, _, rfl, ⟨rfl, rfl, rfl⟩, rfl, rfl⟩
  obtain ⟨a, b, rest, hheard, ⟨ha, habefore, hcyclic⟩, hb, hbbefore⟩ := htwo
  obtain ⟨htable, -⟩ := told_as_written {} (fun _ => some PreparedTable.knot) "shop"
    Listener.probing false #[]
  obtain ⟨heard, hshown, hserved, -, -⟩ := htable o ho
  have hsame := congrArg (Option.map fun p => p.2.heard) hshown
  rw [Option.map_map] at hsame
  obtain rfl := Option.some.inj (hheard.symm.trans hsame)
  have hserves := hserved ⟨"shop", "two"⟩ [a, b] (.here (List.mem_cons_of_mem _ List.mem_cons_self))
  obtain ⟨hverdict, hafter⟩ := hserves.repeats a List.mem_cons_self b
    (List.mem_cons_of_mem _ List.mem_cons_self) _ (Recorder.listener true) id id
    (ha ▸ Listener.probing_houses) (hb ▸ Listener.probing_houses) (hbbefore.trans habefore.symm)
  exact ⟨o, ho, hok, a, b, rest, hheard, hcyclic, hverdict, hafter⟩

end Palettes
