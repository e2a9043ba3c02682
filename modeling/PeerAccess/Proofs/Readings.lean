import PeerAccess.Environment
import PeerAccess.Proofs.Steps
import Mathlib.Logic.Function.Basic

/-!
# Readings

A reading says what it asked the environment for. Nothing else in the environment has a say in it
(`Local`), and what it asks for is a fixed list, gone through up to the first variable with a fault
(`Asks`).
-/

namespace PeerAccess

open Text Environment

namespace Reading

variable {ε ε' α β : Type}

theorem bind_eq (x : Reading ε α) (f : α → Reading ε β) : x >>= f = x.bind f := rfl

theorem pure_eq (a : α) : (pure a : Reading ε α) = { result := .ok a } := rfl

@[simp] theorem result_ofExcept (r : Except ε α) : (ofExcept r).result = r := rfl

@[simp] theorem asked_ofExcept (r : Except ε α) : (ofExcept r).asked = [] := rfl

theorem bind_of_ok {x : Reading ε α} {f : α → Reading ε β} {a : α} (h : x.result = .ok a) :
    x.bind f = { result := (f a).result, asked := x.asked ++ (f a).asked } := by
  unfold bind
  rw [h]

theorem bind_of_error {x : Reading ε α} {f : α → Reading ε β} {e : ε} (h : x.result = .error e) :
    x.bind f = { result := .error e, asked := x.asked } := by
  unfold bind
  rw [h]

theorem result_bind_eq_ok_iff {x : Reading ε α} {f : α → Reading ε β} {b : β} :
    (x.bind f).result = .ok b ↔ ∃ a, x.result = .ok a ∧ (f a).result = .ok b := by
  cases h : x.result with
  | error e => simp [bind_of_error h]
  | ok a => simp [bind_of_ok h]

/-! ## What a reading depends on -/

/-- An environment with the same values for what is asked gives the same reading. -/
def Local (f : Lookup → Reading ε α) : Prop :=
  ∀ l l', (∀ v ∈ (f l).asked, l' v = l v) → f l' = f l

theorem Local.const (x : Reading ε α) : Local fun _ => x := fun _ _ _ => rfl

theorem Local.ask (v : Variable) : Local (ask · v : Lookup → Reading ε (Option String)) := by
  intro l l' h
  have hv : l' v = l v := h v (by simp [Reading.ask])
  simp only [Reading.ask, hv]

theorem Local.bind {f : Lookup → Reading ε α} {g : α → Lookup → Reading ε β} (hf : Local f)
    (hg : ∀ a, Local (g a)) : Local fun l => (f l).bind fun a => g a l := by
  intro l l' h
  simp only at h ⊢
  cases hresult : (f l).result with
  | error e =>
    rw [bind_of_error hresult] at h
    have hx := hf l l' h
    rw [bind_of_error hresult, bind_of_error (hx ▸ hresult), hx]
  | ok a =>
    rw [bind_of_ok hresult] at h
    have hx := hf l l' fun v hv => h v (List.mem_append_left _ hv)
    have hy := hg a l l' fun v hv => h v (List.mem_append_right _ hv)
    rw [bind_of_ok hresult, bind_of_ok (hx ▸ hresult), hx, hy]

theorem Local.mapError {f : Lookup → Reading ε α} (hf : Local f) (g : ε → ε') :
    Local fun l => (f l).mapError g := by
  intro l l' h
  simp only [hf l l' h]

/-! ## What a reading asks for -/

/-- The variables `vs` are asked for one after the other. The first that has a fault ends the
reading, and the fault is the result. -/
structure Asks (x : Reading ε α) (vs : List Variable) (fault? : Variable → Option ε) : Prop where
  fault : ∀ before v after e, vs = before ++ v :: after → (∀ u ∈ before, fault? u = none) →
    fault? v = some e → x.result = .error e ∧ x.asked = before ++ [v]
  value : (∀ v ∈ vs, fault? v = none) → (∃ a, x.result = .ok a) ∧ x.asked = vs

variable {vs ws : List Variable} {fault? : Variable → Option ε}

theorem Asks.pure (a : α) : Asks (ε := ε) { result := .ok a } [] fault? where
  fault before v after e h := by simp at h
  value _ := ⟨⟨a, rfl⟩, rfl⟩

/-- Only the first variable may have a fault. -/
theorem Asks.of_head {x : Reading ε α} {v : Variable} (hrest : ∀ u ∈ vs, fault? u = none)
    (herror : ∀ e, fault? v = some e → x.result = .error e ∧ x.asked = [v])
    (hok : fault? v = none → (∃ a, x.result = .ok a) ∧ x.asked = v :: vs) :
    x.Asks (v :: vs) fault? where
  fault before u after e h hbefore hu := by
    cases before with
    | nil =>
      obtain ⟨rfl, _⟩ := List.cons_eq_cons.mp h
      exact herror e hu
    | cons w before =>
      obtain ⟨_, rfl⟩ := List.cons_eq_cons.mp h
      have hnone := hrest u (by simp)
      rw [hnone] at hu
      cases hu
  value h := hok (h v (by simp))

theorem Asks.bind {x : Reading ε α} {f : α → Reading ε β} (hx : x.Asks vs fault?)
    (hf : ∀ a, x.result = .ok a → (f a).Asks ws fault?) : (x.bind f).Asks (vs ++ ws) fault? where
  fault before v after e h hbefore hv := by
    -- The faulty variable is among `vs`, or else all of `vs` went well.
    rcases List.append_eq_append_iff.mp h with ⟨more, hb, hw⟩ | ⟨more, hvs, hw⟩
    · subst hb
      obtain ⟨⟨a, ha⟩, hasked⟩ := hx.value fun u hu => hbefore u (List.mem_append_left _ hu)
      obtain ⟨herror, hrest⟩ := (hf a ha).fault more v after e hw
        (fun u hu => hbefore u (List.mem_append_right _ hu)) hv
      rw [bind_of_ok ha, herror, hrest, hasked]
      simp
    · cases more with
      | nil =>
        simp only [List.append_nil] at hvs
        subst hvs
        obtain ⟨⟨a, ha⟩, hasked⟩ := hx.value hbefore
        obtain ⟨herror, hrest⟩ := (hf a ha).fault [] v after e (by simpa using hw.symm) (by simp) hv
        rw [bind_of_ok ha, herror, hrest, hasked]
        simp
      | cons u more =>
        obtain ⟨rfl, _⟩ := List.cons_eq_cons.mp hw
        obtain ⟨herror, hasked⟩ := hx.fault before v more e hvs hbefore hv
        rw [bind_of_error herror]
        exact ⟨rfl, hasked⟩
  value h := by
    obtain ⟨⟨a, ha⟩, hasked⟩ := hx.value fun v hv => h v (List.mem_append_left _ hv)
    obtain ⟨⟨b, hb⟩, hrest⟩ := (hf a ha).value fun v hv => h v (List.mem_append_right _ hv)
    rw [bind_of_ok ha, hasked, hrest]
    exact ⟨⟨b, hb⟩, rfl⟩

theorem Asks.mapError {x : Reading ε α} (hx : x.Asks vs fault?) (g : ε → ε') :
    (x.mapError g).Asks vs fun v => (fault? v).map g where
  fault before v after e h hbefore hv := by
    obtain ⟨e', he', rfl⟩ := Option.map_eq_some_iff.mp hv
    obtain ⟨herror, hasked⟩ := hx.fault before v after e' h (by simpa using hbefore) he'
    exact ⟨by simp [Reading.mapError, herror, Except.mapError], hasked⟩
  value h := by
    obtain ⟨⟨a, ha⟩, hasked⟩ := hx.value (by simpa using h)
    exact ⟨⟨a, by simp [Reading.mapError, ha, Except.mapError]⟩, hasked⟩

theorem Asks.asked_subset {x : Reading ε α} (hx : x.Asks vs fault?) : x.asked ⊆ vs := by
  cases hfirst : vs.find? fun v => (fault? v).isSome with
  | none =>
    have hnone : ∀ v ∈ vs, fault? v = none := by simpa using hfirst
    exact (hx.value hnone).2 ▸ List.Subset.refl vs
  | some v =>
    obtain ⟨hv, before, after, rfl, hbefore⟩ := List.find?_eq_some_iff_append.mp hfirst
    obtain ⟨e, he⟩ := Option.isSome_iff_exists.mp hv
    rw [(hx.fault before v after e rfl (by simpa using hbefore) he).2]
    simp

end Reading

end PeerAccess
