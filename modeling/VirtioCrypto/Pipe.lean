import VirtioCrypto.Transition

/-!
# Pipes — two ends that stay in step

A sender makes packets out of messages, a receiver messages out of packets, and between them is
a wire that loses nothing and keeps the order. Both ends have a state that moves with every
message, so a packet can only be opened in the state the receiver has at its turn.

`InStep` is what one message needs; `run_delivers` is what follows for every interleaving of sends
and receives: none of them fails, and what has been received is what was sent, in order, up to what
is on the wire.
-/

namespace Pipe

/-- The two ends. `A` and `B` is what the surroundings add to a send and to a receive. -/
structure Ends (S R M W A B : Type) where
  send : S → M → A → Option (S × W)
  receive : R → W → B → Option (R × M)

inductive Event (M A B : Type) where
  | send (m : M) (a : A)
  | receive (b : B)

structure State (S R M W : Type) where
  sender : S
  receiver : R
  wire : List W
  sent : List M
  received : List M

variable {S R M W A B : Type}

def start (s : S) (r : R) : State S R M W := ⟨s, r, [], [], []⟩

/-- A receive on an empty wire finds nothing; a message that cannot be sent, or a packet that is
not accepted, is the end of the run. -/
def step (p : Ends S R M W A B) (st : State S R M W) : Event M A B → Option (State S R M W)
  | .send m a =>
    (p.send st.sender m a).map fun r =>
      { st with sender := r.1, wire := st.wire ++ [r.2], sent := st.sent ++ [m] }
  | .receive b =>
    match st.wire with
    | [] => some st
    | w :: ws =>
      (p.receive st.receiver w b).map fun r =>
        { st with receiver := r.1, wire := ws, received := st.received ++ [r.2] }

/-- Ends in step agree on a message, whatever the surroundings of its way, and are in step again. -/
def InStep (p : Ends S R M W A B) (Sync : S → R → Prop) (Fits : M → Prop) (Sends : A → Prop)
    (Receives : B → Prop) : Prop :=
  ∀ s r m a, Sync s r → Fits m → Sends a → ∃ s' r' w, p.send s m a = some (s', w) ∧ Sync s' r' ∧
    ∀ b, Receives b → p.receive r w b = some (r', m)

/-- What is on the wire opens to these messages, from the receiver's state up to the sender's. -/
inductive Opens (p : Ends S R M W A B) (Sync : S → R → Prop) (Receives : B → Prop) (s : S) :
    R → List W → List M → Prop where
  | done {r : R} (h : Sync s r) : Opens p Sync Receives s r [] []
  | next {r r' : R} {w : W} {m : M} {ws : List W} {ms : List M}
      (h : ∀ b, Receives b → p.receive r w b = some (r', m)) (rest : Opens p Sync Receives s r' ws ms) :
      Opens p Sync Receives s r (w :: ws) (m :: ms)

variable {p : Ends S R M W A B} {Sync : S → R → Prop} {Fits : M → Prop} {Sends : A → Prop}
variable {Receives : B → Prop}

/-- One more packet, at the sender's end. -/
theorem Opens.send (hIn : InStep p Sync Fits Sends Receives) {s : S} {r : R} {ws : List W} {ms : List M} {m : M}
    {a : A} (hFit : Fits m) (ha : Sends a) (hOpens : Opens p Sync Receives s r ws ms) :
    ∃ s' w, p.send s m a = some (s', w) ∧ Opens p Sync Receives s' r (ws ++ [w]) (ms ++ [m]) := by
  induction hOpens with
  | done h =>
    obtain ⟨s', r', w, hSend, hSync, hReceive⟩ := hIn _ _ m a h hFit ha
    exact ⟨s', w, hSend, .next hReceive (.done hSync)⟩
  | next h _ ih =>
    obtain ⟨s', w, hSend, hRest⟩ := ih
    exact ⟨s', w, hSend, .next h hRest⟩

theorem Opens.length_eq {s : S} {r : R} {ws : List W} {ms : List M}
    (hOpens : Opens p Sync Receives s r ws ms) : ws.length = ms.length := by
  induction hOpens with
  | done => rfl
  | next _ _ ih => rw [List.length_cons, List.length_cons, ih]

/-- The invariant: what was sent is what has been received and what the wire opens to. -/
def InOrder (p : Ends S R M W A B) (Sync : S → R → Prop) (Receives : B → Prop) (st : State S R M W) : Prop :=
  ∃ ms, st.sent = st.received ++ ms ∧ Opens p Sync Receives st.sender st.receiver st.wire ms

/-- What the surroundings may do. -/
def Allowed (Fits : M → Prop) (Sends : A → Prop) (Receives : B → Prop) : Event M A B → Prop
  | .send m a => Fits m ∧ Sends a
  | .receive b => Receives b

instance [DecidablePred Fits] [DecidablePred Sends] [DecidablePred Receives] :
    DecidablePred (Allowed Fits Sends Receives)
  | .send m a => inferInstanceAs (Decidable (Fits m ∧ Sends a))
  | .receive b => inferInstanceAs (Decidable (Receives b))

theorem step_inOrder (hIn : InStep p Sync Fits Sends Receives) (st : State S R M W) (e : Event M A B)
    (hInv : InOrder p Sync Receives st) (he : Allowed Fits Sends Receives e) :
    ∃ st', step p st e = some st' ∧ InOrder p Sync Receives st' := by
  obtain ⟨ms, hSent, hOpens⟩ := hInv
  cases e with
  | send m a =>
    obtain ⟨s', w, hSend, hMore⟩ := hOpens.send hIn he.1 he.2
    refine ⟨_, by rw [step, hSend]; rfl, ms ++ [m], ?_, hMore⟩
    show st.sent ++ [m] = st.received ++ (ms ++ [m])
    rw [hSent, List.append_assoc]
  | receive b =>
    obtain ⟨sender, receiver, wire, sent, received⟩ := st
    cases hOpens with
    | done h => exact ⟨_, rfl, [], hSent, .done h⟩
    | @next _ r' w m ws ms h rest =>
      refine ⟨_, by rw [step]; dsimp only; rw [h b he]; rfl, ms, ?_, rest⟩
      show sent = (received ++ [m]) ++ ms
      rw [List.append_assoc]
      exact hSent

/-- The messages among the events. -/
def messages (es : List (Event M A B)) : List M :=
  es.filterMap fun
    | .send m _ => some m
    | .receive _ => none

theorem step_sent {st st' : State S R M W} {e : Event M A B} (hStep : step p st e = some st') :
    st'.sent = st.sent ++ messages [e] := by
  cases e with
  | send m a =>
    obtain ⟨r, -, rfl⟩ := Option.map_eq_some_iff.mp hStep
    rfl
  | receive b =>
    rw [step] at hStep
    split at hStep
    · obtain rfl := Option.some.inj hStep
      exact (List.append_nil _).symm
    · obtain ⟨r, -, rfl⟩ := Option.map_eq_some_iff.mp hStep
      exact (List.append_nil _).symm

theorem run_sent {es : List (Event M A B)} : ∀ {st st' : State S R M W},
    Transition.run (step p) st es = some st' → st'.sent = st.sent ++ messages es := by
  induction es with
  | nil =>
    intro st st' hRun
    obtain rfl := Option.some.inj hRun
    exact (List.append_nil _).symm
  | cons e es ih =>
    intro st st' hRun
    obtain ⟨st₁, hOne, hRest⟩ := Option.bind_eq_some_iff.mp hRun
    rw [ih hRest, step_sent hOne, List.append_assoc]
    congr 1
    rw [messages, messages, messages, ← List.filterMap_append, List.singleton_append]

/-- However sends and receives are interleaved, none fails; what has been received is what was
sent, in order, as far as it has come, and all of it once the wire is empty. -/
theorem run_delivers (hIn : InStep p Sync Fits Sends Receives) {s : S} {r : R} (hSync : Sync s r)
    {es : List (Event M A B)} (hEs : ∀ e ∈ es, Allowed Fits Sends Receives e) :
    ∃ st, Transition.run (step p) (start s r) es = some st ∧ st.received <+: messages es ∧
      st.received.length + st.wire.length = (messages es).length := by
  have hStart : InOrder p Sync Receives (start s r) := ⟨[], rfl, .done hSync⟩
  obtain ⟨st, hRun, ms, hSent, hOpens⟩ := Transition.run_exists (step_inOrder hIn) hStart hEs
  have hAll : messages es = st.received ++ ms := (run_sent hRun).symm.trans hSent
  refine ⟨st, hRun, ⟨ms, hAll.symm⟩, ?_⟩
  rw [hAll, List.length_append, hOpens.length_eq]

end Pipe
