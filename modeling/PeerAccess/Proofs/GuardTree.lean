import PeerAccess.Http.Handler
import PeerAccess.Proofs.History
import PeerAccess.Proofs.Mapped

/-!
# Trees of guards

A request walks down a tree of guards: on to the next side where the peer is admitted, to the
rejection where it is not. The handler at the end of the walk answers, and no other is called.
-/

namespace PeerAccess

/-- The same address, written as IPv4 or mapped, on any port and in any scope. -/
inductive SameHost : Endpoint → Endpoint → Prop
  | v4 (a : Ipv4) (p p' : UInt16) : SameHost (.v4 a p) (.v4 a p')
  | v6 (a : Ipv6) (s s' : UInt32) (p p' : UInt16) : SameHost (.v6 a s p) (.v6 a s' p')
  | mapped (a : Ipv4) (s : UInt32) (p p' : UInt16) : SameHost (.v4 a p) (.v6 a.toMapped s p')

theorem SameHost.canonical_eq {e e' : Endpoint} (h : SameHost e e') :
    e.ip.canonical = e'.ip.canonical := by
  cases h with
  | v4 a p p' => rfl
  | v6 a s s' p p' => rfl
  | mapped a s p p' => exact (Ip.canonical_of_mapped a.octets_toMapped).symm

namespace Http.Handler

variable {κ α : Type}

/-! ## Walks -/

/-- How `peer` gets through a tree: the guards on its way with their verdicts, and the handler at
the end. -/
inductive Walk (policies : κ → Policy) (peer : Ip) : Handler κ α → List (κ × Bool) → α → Prop
  | arrive (a : α) : Walk policies peer (leaf a) [] a
  | admitted {gate : κ} {next rejection : Handler κ α} {steps : List (κ × Bool)} {a : α}
      (hgate : (policies gate).admits peer = true) (hwalk : Walk policies peer next steps a) :
      Walk policies peer (guard gate next rejection) ((gate, true) :: steps) a
  | denied {gate : κ} {next rejection : Handler κ α} {steps : List (κ × Bool)} {a : α}
      (hgate : (policies gate).admits peer = false) (hwalk : Walk policies peer rejection steps a) :
      Walk policies peer (guard gate next rejection) ((gate, false) :: steps) a

variable {policies : κ → Policy}

theorem exists_walk (policies : κ → Policy) (peer : Ip) (h : Handler κ α) :
    ∃ steps a, Walk policies peer h steps a := by
  induction h with
  | leaf a => exact ⟨[], a, .arrive a⟩
  | guard gate next rejection ihnext ihrejection =>
    cases hgate : (policies gate).admits peer with
    | true =>
      obtain ⟨steps, a, hwalk⟩ := ihnext
      exact ⟨_, a, .admitted hgate hwalk⟩
    | false =>
      obtain ⟨steps, a, hwalk⟩ := ihrejection
      exact ⟨_, a, .denied hgate hwalk⟩

theorem Walk.unique {peer : Ip} {h : Handler κ α} {steps steps' : List (κ × Bool)} {a a' : α}
    (hwalk : Walk policies peer h steps a) (hwalk' : Walk policies peer h steps' a') :
    steps' = steps ∧ a' = a := by
  induction hwalk generalizing steps' with
  | arrive a =>
    cases hwalk'
    exact ⟨rfl, rfl⟩
  | admitted hgate _ ih =>
    cases hwalk' with
    | admitted _ hwalk' =>
      obtain ⟨rfl, rfl⟩ := ih hwalk'
      exact ⟨rfl, rfl⟩
    | denied hgate' _ => simp [hgate] at hgate'
  | denied hgate _ ih =>
    cases hwalk' with
    | admitted hgate' _ => simp [hgate] at hgate'
    | denied _ hwalk' =>
      obtain ⟨rfl, rfl⟩ := ih hwalk'
      exact ⟨rfl, rfl⟩

/-- Guards do not tell forms, ports and scopes of an address apart. -/
theorem Walk.of_canonical_eq {peer peer' : Ip} {h : Handler κ α} {steps : List (κ × Bool)} {a : α}
    (hwalk : Walk policies peer h steps a) (hpeer : peer.canonical = peer'.canonical) :
    Walk policies peer' h steps a := by
  induction hwalk with
  | arrive a => exact .arrive a
  | admitted hgate _ ih => exact .admitted (by rwa [Policy.admits, ← hpeer]) ih
  | denied hgate _ ih => exact .denied (by rwa [Policy.admits, ← hpeer]) ih

theorem route_of_walk {peer : Ip} {h : Handler κ α} {steps : List (κ × Bool)} {a : α}
    (hwalk : Walk policies peer h steps a) : h.route policies peer = a := by
  induction hwalk with
  | arrive a => rfl
  | admitted hgate _ ih => simp [route, hgate, ih]
  | denied hgate _ ih => simp [route, hgate, ih]

/-! ## What is reported on a walk -/

/-- A guard reports the rule that decided, and the peer if it is denied. -/
def stepEvents (policies : κ → Policy) (r : Request) : κ × Bool → List Event
  | (gate, true) => (policies gate).admissionEvents r.peer.ip
  | (gate, false) =>
    (policies gate).admissionEvents r.peer.ip ++ [.peerRejected r.peer.ip r.method r.path]

theorem handle_of_walk {answer : α → Request → Response} {h : Handler κ α} {r : Request}
    {steps : List (κ × Bool)} {a : α} (hwalk : Walk policies r.peer.ip h steps a) :
    h.handle policies answer r =
      { response := answer a r
        calls := [(a, r)]
        events := steps.flatMap (stepEvents policies r) } := by
  induction hwalk with
  | arrive a => rfl
  | admitted hgate _ ih => simp [handle, hgate, ih, stepEvents]
  | denied hgate _ ih => simp [handle, hgate, ih, stepEvents]

theorem filter_stepEvents (policies : κ → Policy) (r : Request) (step : κ × Bool) :
    (stepEvents policies r step).filter (·.level = .debug) =
      if step.2 then [] else [.peerRejected r.peer.ip r.method r.path] := by
  obtain ⟨gate, verdict⟩ := step
  have hnone : ((policies gate).admissionEvents r.peer.ip).filter (·.level = .debug) = [] := by
    rw [List.filter_eq_nil_iff]
    intro e he
    simp [Policy.level_of_mem_admissionEvents he]
  cases verdict with
  | true => exact hnone
  | false =>
    rw [stepEvents, List.filter_append, hnone]
    rfl

theorem debug_lines_of_steps (policies : κ → Policy) (r : Request) (steps : List (κ × Bool)) :
    ((steps.flatMap (stepEvents policies r)).filter (·.level = .debug)).map Event.line =
      (steps.filter (!·.2)).map fun _ =>
        s!"DEBUG Peer {r.peer.ip} rejected: {r.method} {r.path}" := by
  induction steps with
  | nil => rfl
  | cons step steps ih =>
    rw [List.flatMap_cons, List.filter_append, filter_stepEvents, List.map_append, ih]
    cases h : step.2 with
    | true => simp [h]
    | false =>
      rw [List.filter_cons_of_pos (by simp [h])]
      rfl

/-! ## Chains -/

/-- Guards one behind the other, each with a handler for those that it denies. -/
def chain : List (κ × α) → α → Handler κ α
  | [], inner => leaf inner
  | (gate, rejection) :: gs, inner => guard gate (chain gs inner) (leaf rejection)

theorem walk_chain_of_admitted {peer : Ip} {gs : List (κ × α)}
    (h : ∀ g ∈ gs, (policies g.1).admits peer = true) (inner : α) :
    Walk policies peer (chain gs inner) (gs.map fun g => (g.1, true)) inner := by
  induction gs with
  | nil => exact .arrive inner
  | cons g gs ih =>
    exact .admitted (h g (by simp)) (ih fun g' hg' => h g' (List.mem_cons_of_mem g hg'))

theorem walk_chain_of_denied {peer : Ip} {before : List (κ × α)}
    (h : ∀ g ∈ before, (policies g.1).admits peer = true) {gate : κ}
    (hgate : (policies gate).admits peer = false) (rejection : α) (rest : List (κ × α))
    (inner : α) :
    Walk policies peer (chain (before ++ (gate, rejection) :: rest) inner)
      (before.map (fun g => (g.1, true)) ++ [(gate, false)]) rejection := by
  induction before with
  | nil => exact .denied hgate (.arrive rejection)
  | cons g before ih =>
    exact .admitted (h g (by simp)) (ih fun g' hg' => h g' (List.mem_cons_of_mem g hg'))

theorem all_admit_or_first_denies (policies : κ → Policy) (peer : Ip) (gs : List (κ × α)) :
    (∀ g ∈ gs, (policies g.1).admits peer = true) ∨
      ∃ before gate rejection rest, gs = before ++ (gate, rejection) :: rest ∧
        (∀ g ∈ before, (policies g.1).admits peer = true) ∧
        (policies gate).admits peer = false := by
  induction gs with
  | nil => exact .inl (by simp)
  | cons g gs ih =>
    cases hg : (policies g.1).admits peer with
    | false => exact .inr ⟨[], g.1, g.2, gs, rfl, by simp, hg⟩
    | true =>
      rcases ih with hall | ⟨before, gate, rejection, rest, rfl, hbefore, hgate⟩
      · exact .inl (by simpa [hg] using hall)
      · exact .inr ⟨g :: before, gate, rejection, rest, rfl, by simpa [hg] using hbefore, hgate⟩

/-- Behind a chain whose rejections are other handlers, the innermost one is for those that every
guard admits. -/
theorem mem_calls_chain_iff {answer : α → Request → Response} {gs : List (κ × α)} {inner : α}
    (hinner : ∀ g ∈ gs, g.2 ≠ inner) (r : Request) :
    (inner, r) ∈ ((chain gs inner).handle policies answer r).calls ↔
      ∀ g ∈ gs, (policies g.1).admits r.peer.ip = true := by
  rcases all_admit_or_first_denies policies r.peer.ip gs with
    hall | ⟨before, gate, rejection, rest, rfl, hbefore, hgate⟩
  · rw [handle_of_walk (walk_chain_of_admitted hall inner)]
    simp only [List.mem_singleton, true_iff]
    exact hall
  · rw [handle_of_walk (walk_chain_of_denied hbefore hgate rejection rest inner)]
    have hne : rejection ≠ inner := hinner (gate, rejection) (by simp)
    simp only [List.mem_singleton, Prod.mk.injEq, and_true, hne.symm, false_iff]
    intro hall
    have := hall (gate, rejection) (by simp)
    simp [hgate] at this

/-! ## The whole -/

/-- What the guards on a walk ask the policy that is called `gate`. -/
def questions [DecidableEq κ] (steps : List (κ × Bool)) (peer : Ip) (gate : κ) : List Call :=
  (steps.filter (·.1 = gate)).map fun _ => .admits peer

/-- A request walks to one handler, which gets it once and as it was; the guards on the way report
whom they deny and stay as they are. -/
theorem one_leaf_answers [DecidableEq κ] (policies : κ → Policy)
    (answer : α → Request → Response) (h : Handler κ α) (r : Request) :
    (∃ steps a, Walk policies r.peer.ip h steps a ∧
        (∀ steps' a', Walk policies r.peer.ip h steps' a' → steps' = steps ∧ a' = a) ∧
        h.route policies r.peer.ip = a ∧
        h.handle policies answer r =
          { response := answer a r
            calls := [(a, r)]
            events := steps.flatMap (stepEvents policies r) } ∧
        ((h.handle policies answer r).events.filter (·.level = .debug)).map Event.line =
          (steps.filter (!·.2)).map (fun _ =>
            s!"DEBUG Peer {r.peer.ip} rejected: {r.method} {r.path}") ∧
        ∀ gate, (policies gate).afterCalls (questions steps r.peer.ip gate) = policies gate) ∧
      (∀ gs inner,
        ((∀ g ∈ gs, (policies g.1).admits r.peer.ip = true) →
          ((chain gs inner).handle policies answer r).calls = [(inner, r)]) ∧
        (∀ before gate rejection rest, gs = before ++ (gate, rejection) :: rest →
          (∀ g ∈ before, (policies g.1).admits r.peer.ip = true) →
          (policies gate).admits r.peer.ip = false →
          ((chain gs inner).handle policies answer r).calls = [(rejection, r)] ∧
            ((chain gs inner).handle policies answer r).response = answer rejection r) ∧
        ((∀ g ∈ gs, g.2 ≠ inner) →
          ((inner, r) ∈ ((chain gs inner).handle policies answer r).calls ↔
            ∀ g ∈ gs, (policies g.1).admits r.peer.ip = true))) ∧
      ∀ e e', SameHost e e' → ∃ a,
        (h.handle policies answer { r with peer := e }).calls = [(a, { r with peer := e })] ∧
          (h.handle policies answer { r with peer := e' }).calls =
            [(a, { r with peer := e' })] := by
  refine ⟨?_, ?_, ?_⟩
  · obtain ⟨steps, a, hwalk⟩ := exists_walk policies r.peer.ip h
    refine ⟨steps, a, hwalk, fun _ _ hwalk' => hwalk.unique hwalk', route_of_walk hwalk,
      handle_of_walk hwalk, ?_, fun gate => ?_⟩
    · rw [handle_of_walk hwalk]
      exact debug_lines_of_steps policies r steps
    · apply Policy.afterCalls_of_questions
      intro c hc
      obtain ⟨_, _, rfl⟩ := List.mem_map.mp hc
      rfl
  · intro gs inner
    refine ⟨?_, ?_, fun hinner => mem_calls_chain_iff hinner r⟩
    · intro hall
      rw [handle_of_walk (walk_chain_of_admitted hall inner)]
    · rintro before gate rejection rest rfl hbefore hgate
      rw [handle_of_walk (walk_chain_of_denied hbefore hgate rejection rest inner)]
      exact ⟨rfl, rfl⟩
  · intro e e' hhost
    obtain ⟨steps, a, hwalk⟩ := exists_walk policies e.ip h
    have hwalk' := hwalk.of_canonical_eq hhost.canonical_eq
    refine ⟨a, ?_, ?_⟩
    · rw [handle_of_walk (r := { r with peer := e }) hwalk]
    · rw [handle_of_walk (r := { r with peer := e' }) hwalk']

end Http.Handler

end PeerAccess
