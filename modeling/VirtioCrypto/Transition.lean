import Mathlib.Data.List.Basic

/-!
# Transition systems — runs and what they keep

A deterministic system over an alphabet of events: `step s e` is the state after
`e`, or nothing when `e` cannot happen in `s`. A run takes a list of events one
after the other. `Along R` says of every step of a run that `R` holds of it, in
the state it is taken in; this is how assumptions on the environment are stated.

* `run_invariant`, `run_keeps` — what every step keeps, a whole run keeps;
* `run_iff_along`, `run_iff_along_of` — what the state records of every step, it
  records of the run;
* `along_mono`, `along_congr` — conditions along a run, up to an invariant;
* `run_counts`, `run_spends` — what is counted, and what is left of a stock, after a run;
* `run_filter` — if the events of one party cannot tell a run from its restriction
  to them, and the others' events change nothing for it, the two end alike;
* `decidableAlong` — an assumption along a run of concrete events can be
  evaluated.
-/

namespace Transition

variable {S E : Type} (step : S → E → Option S)

/-- A run: the steps of the events one after the other. -/
def run : S → List E → Option S
  | s, [] => some s
  | s, e :: es => (step s e).bind fun s' => run s' es

/-- `R` holds of every step of a run, at the state it is taken in. -/
def Along (R : S → E → Prop) : S → List E → Prop
  | _, [] => True
  | s, e :: es => R s e ∧ ∀ s', step s e = some s' → Along R s' es

/-- Along a run on concrete events this can be evaluated. -/
instance decidableAlong (R : S → E → Prop) [∀ s e, Decidable (R s e)] :
    (s : S) → (es : List E) → Decidable (Along step R s es)
  | _, [] => isTrue trivial
  | s, e :: es =>
    match hStep : step s e with
    | none => decidable_of_iff (R s e) ⟨fun h => ⟨h, by simp [hStep]⟩, fun h => h.1⟩
    | some s' =>
      have := decidableAlong R s' es
      decidable_of_iff (R s e ∧ Along step R s' es)
        ⟨fun h => ⟨h.1, fun t ht => Option.some.inj (hStep.symm.trans ht) ▸ h.2⟩,
         fun h => ⟨h.1, h.2 s' hStep⟩⟩

variable {step}

/-- One run after another. -/
theorem run_append (es fs : List E) :
    ∀ s : S, run step s (es ++ fs) = (run step s es).bind fun s' => run step s' fs := by
  induction es with
  | nil =>
    intro s
    rfl
  | cons e es ih =>
    intro s
    rw [List.cons_append, run, run, Option.bind_assoc]
    exact Option.bind_congr fun s' _ => ih s'

/-- What the steps keep, given what is known of each of them, holds at the end of
the run. -/
theorem run_invariant {R : S → E → Prop} {Inv : S → Prop}
    (hStep : ∀ s e s', Inv s → R s e → step s e = some s' → Inv s') {es : List E} :
    ∀ {s s' : S}, Inv s → Along step R s es → run step s es = some s' → Inv s' := by
  induction es with
  | nil =>
    intro s s' hInv _ hRun
    obtain rfl : s = s' := Option.some.inj hRun
    exact hInv
  | cons e es ih =>
    intro s s' hInv hAlong hRun
    obtain ⟨s₁, hOne, hRest⟩ := Option.bind_eq_some_iff.mp hRun
    exact ih (hStep s e s₁ hInv hAlong.1 hOne) (hAlong.2 s₁ hOne) hRest

/-- An invariant of the system itself, with nothing assumed of the steps. -/
theorem run_keeps {Inv : S → Prop} (hStep : ∀ s e s', Inv s → step s e = some s' → Inv s')
    {es : List E} : ∀ {s s' : S}, Inv s → run step s es = some s' → Inv s' := by
  induction es with
  | nil =>
    intro s s' hInv hRun
    obtain rfl : s = s' := Option.some.inj hRun
    exact hInv
  | cons e es ih =>
    intro s s' hInv hRun
    obtain ⟨s₁, hOne, hRest⟩ := Option.bind_eq_some_iff.mp hRun
    exact ih (hStep s e s₁ hInv hOne) hRest

/-- A counter that goes up with some of the events counts them. -/
theorem run_counts {f : S → Nat} {p : E → Bool}
    (hStep : ∀ s e s', step s e = some s' → f s' = f s + (p e).toNat) {es : List E} :
    ∀ {s s' : S}, run step s es = some s' → f s' = f s + es.countP p := by
  induction es with
  | nil =>
    intro s s' hRun
    obtain rfl : s = s' := Option.some.inj hRun
    rfl
  | cons e es ih =>
    intro s s' hRun
    obtain ⟨s₁, hOne, hRest⟩ := Option.bind_eq_some_iff.mp hRun
    have hHere := hStep s e s₁ hOne
    rw [ih hRest, hHere, List.countP_cons]
    cases p e
    · simp
    · simp
      omega

/-- A stock that some of the events take one from, and none more, is not used up sooner. -/
theorem run_spends {f : S → Nat} {p : E → Bool}
    (hStep : ∀ s e s', step s e = some s' → f s ≤ f s' + (p e).toNat) {es : List E} :
    ∀ {s s' : S}, run step s es = some s' → f s ≤ f s' + es.countP p := by
  induction es with
  | nil =>
    intro s s' hRun
    obtain rfl : s = s' := Option.some.inj hRun
    exact Nat.le_refl _
  | cons e es ih =>
    intro s s' hRun
    obtain ⟨s₁, hOne, hRest⟩ := Option.bind_eq_some_iff.mp hRun
    have hHere := hStep s e s₁ hOne
    have hLater := ih hRest
    rw [List.countP_cons]
    cases hp : p e <;> simp [hp] at hHere ⊢ <;> omega

/-- When no event that `R` allows can get stuck, no run of such events does. -/
theorem run_exists {R : E → Prop} {Inv : S → Prop}
    (hStep : ∀ s e, Inv s → R e → ∃ s', step s e = some s' ∧ Inv s') {es : List E} :
    ∀ {s : S}, Inv s → (∀ e ∈ es, R e) → ∃ s', run step s es = some s' ∧ Inv s' := by
  induction es with
  | nil =>
    intro s hInv _
    exact ⟨s, rfl, hInv⟩
  | cons e es ih =>
    intro s hInv hAll
    obtain ⟨s₁, hOne, hInv₁⟩ := hStep s e hInv (hAll e (by simp))
    obtain ⟨s', hRest, hInv'⟩ := ih hInv₁ fun e' he => hAll e' (by simp [he])
    exact ⟨s', by rw [run, hOne]; exact hRest, hInv'⟩

/-- An assumption on the events alone. -/
theorem along_of_forall {P : E → Prop} {es : List E} :
    (∀ e ∈ es, P e) → ∀ {s : S}, Along step (fun _ e => P e) s es := by
  induction es with
  | nil =>
    intro _ s
    trivial
  | cons e es ih =>
    intro h s
    exact ⟨h e (by simp), fun s' _ => ih fun e' he => h e' (by simp [he])⟩

/-- What an invariant implies of every step holds along every run. -/
theorem along_of_keeps {R : S → E → Prop} {Inv : S → Prop}
    (hStep : ∀ s e s', Inv s → step s e = some s' → Inv s') (hInv : ∀ s e, Inv s → R s e)
    (es : List E) : ∀ {s : S}, Inv s → Along step R s es := by
  induction es with
  | nil =>
    intro s _
    trivial
  | cons e es ih =>
    intro s h
    exact ⟨hInv s e h, fun s' hOne => ih (hStep s e s' h hOne)⟩

/-- A condition along a run may be weakened with the help of an invariant. -/
theorem along_mono {P R : S → E → Prop} {I : S → Prop}
    (hStep : ∀ s e s', I s → R s e → step s e = some s' → I s')
    (hWeak : ∀ s e, I s → P s e → R s e) {es : List E} :
    ∀ {s : S}, I s → Along step P s es → Along step R s es := by
  induction es with
  | nil =>
    intro s _ _
    trivial
  | cons e es ih =>
    intro s hInv hAlong
    have hHere := hWeak s e hInv hAlong.1
    exact ⟨hHere, fun s' hOne => ih (hStep s e s' hInv hHere hOne) (hAlong.2 s' hOne)⟩

/-- Two conditions that agree at every step, given an invariant that the first keeps and
what is known of the steps anyway (`D`), agree along every run. -/
theorem along_congr {D P R : S → E → Prop} {I : S → Prop}
    (hIff : ∀ s e, I s → D s e → (P s e ↔ R s e))
    (hStep : ∀ s e s', I s → D s e → P s e → step s e = some s' → I s') {es : List E} :
    ∀ {s : S}, I s → Along step D s es → (Along step P s es ↔ Along step R s es) := by
  induction es with
  | nil =>
    intro s _ _
    exact Iff.rfl
  | cons e es ih =>
    intro s hInv hD
    have hHere := hIff s e hInv hD.1
    constructor
    · rintro ⟨hP, hLater⟩
      refine ⟨hHere.mp hP, fun s' hOne => ?_⟩
      exact (ih (hStep s e s' hInv hD.1 hP hOne) (hD.2 s' hOne)).mp (hLater s' hOne)
    · rintro ⟨hR, hLater⟩
      have hP := hHere.mpr hR
      refine ⟨hP, fun s' hOne => ?_⟩
      exact (ih (hStep s e s' hInv hD.1 hP hOne) (hD.2 s' hOne)).mpr (hLater s' hOne)

/-- A property that a step keeps exactly when `R` holds of it, for instance that
nothing bad has been recorded, tells at the end whether `R` held all along. `D` is
what is known of every step anyway. -/
theorem run_iff_along_of {D R : S → E → Prop} {Ok : S → Prop}
    (hStep : ∀ s e s', D s e → step s e = some s' → (Ok s' ↔ Ok s ∧ R s e)) {es : List E} :
    ∀ {s s' : S}, Along step D s es → run step s es = some s' →
      (Ok s' ↔ Ok s ∧ Along step R s es) := by
  induction es with
  | nil =>
    intro s s' _ hRun
    obtain rfl : s = s' := Option.some.inj hRun
    simp [Along]
  | cons e es ih =>
    intro s s' hAlong hRun
    obtain ⟨s₁, hOne, hRest⟩ := Option.bind_eq_some_iff.mp hRun
    rw [ih (hAlong.2 s₁ hOne) hRest, hStep s e s₁ hAlong.1 hOne, and_assoc]
    refine and_congr_right fun _ => and_congr_right fun _ => ?_
    exact ⟨fun h s₂ hTwo => Option.some.inj (hOne.symm.trans hTwo) ▸ h, fun h => h s₁ hOne⟩

/-- The same, with nothing known. -/
theorem run_iff_along {R : S → E → Prop} {Ok : S → Prop}
    (hStep : ∀ s e s', step s e = some s' → (Ok s' ↔ Ok s ∧ R s e)) {es : List E} {s s' : S}
    (hRun : run step s es = some s') : Ok s' ↔ Ok s ∧ Along step R s es :=
  run_iff_along_of (fun s e s' _ => hStep s e s')
    (along_of_forall (P := fun _ => True) fun _ _ => trivial) hRun

/-- Unwinding: `Sim` relates a run to the run of the `own` events only. -/
theorem run_filter {R : S → E → Prop} {Sim : S → S → Prop} {own : E → Bool}
    (hOwn : ∀ s t e s', own e = true → Sim s t → R s e → step s e = some s' →
      ∃ t', step t e = some t' ∧ Sim s' t')
    (hOther : ∀ s t e s', own e = false → Sim s t → R s e → step s e = some s' → Sim s' t)
    {es : List E} : ∀ {s t s' : S}, Sim s t → Along step R s es → run step s es = some s' →
      ∃ t', run step t (es.filter own) = some t' ∧ Sim s' t' := by
  induction es with
  | nil =>
    intro s t s' hSim _ hRun
    obtain rfl : s = s' := Option.some.inj hRun
    exact ⟨t, rfl, hSim⟩
  | cons e es ih =>
    intro s t s' hSim hAlong hRun
    obtain ⟨s₁, hOne, hRest⟩ := Option.bind_eq_some_iff.mp hRun
    cases hKind : own e with
    | true =>
      obtain ⟨t₁, hStep, hSim₁⟩ := hOwn s t e s₁ hKind hSim hAlong.1 hOne
      obtain ⟨t', hRun', hSim'⟩ := ih hSim₁ (hAlong.2 s₁ hOne) hRest
      refine ⟨t', ?_, hSim'⟩
      rw [List.filter_cons_of_pos hKind, run, hStep]
      exact hRun'
    | false =>
      rw [List.filter_cons_of_neg (by simp [hKind])]
      exact ih (hOther s t e s₁ hKind hSim hAlong.1 hOne) (hAlong.2 s₁ hOne) hRest

end Transition
