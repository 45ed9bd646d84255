import Bazalt.Lib.Run
import Bazalt.Model

/-!
# The service registry

The services are one immutable map that readers load without a lock.  A writer loads the
map, changes a copy of it and publishes the copy.  Between the load and the store another
writer may publish a copy of its own, and its change is then lost.

Writers that store what they have changed while the map is still the one they loaded act
one after the other, in the order of their stores.
-/

namespace Bazalt.Services

open Lib

structure ServiceConfig where
  port : UInt16
  name : String
  http : Bool := true
  urldecodeHttpRequests : Bool := false
  mergeAdjacentPackets : Bool := false
  parseWebsockets : Bool := false
  deriving DecidableEq, Repr

/-- A map from ports to services. -/
abbrev ServiceMap := UInt16 → Option ServiceConfig

namespace ServiceMap

def insert (m : ServiceMap) (service : ServiceConfig) : ServiceMap :=
  Function.update m service.port (some service)

def remove (m : ServiceMap) (port : UInt16) : ServiceMap := Function.update m port none

def containsKey (m : ServiceMap) (port : UInt16) : Bool := (m port).isSome

/-- The map of `ServiceRegistry::new`. -/
def ofList (initial : List ServiceConfig) : ServiceMap := initial.foldl insert fun _ ↦ none

theorem remove_of_not_containsKey {m : ServiceMap} {port : UInt16}
    (h : m.containsKey port = false) : m.remove port = m := by
  have habsent : m port = none := by simpa [containsKey] using h
  exact Function.update_eq_self_iff.mpr habsent.symm

end ServiceMap

structure ServiceRegistry where
  byPort : ServiceMap
  generation : ℕ := 1

inductive Call where
  | upsert (service : ServiceConfig)
  | delete (port : UInt16)
  deriving DecidableEq, Repr

/-- What the call does to the map it has loaded. -/
def Call.apply (m : ServiceMap) : Call → ServiceMap
  | .upsert service => m.insert service
  | .delete port => m.remove port

/-- Where a call is: before its load, before its store, before it counts the generation,
and after its return. -/
inductive Stage where
  | called (call : Call)
  | loaded (call : Call) (current : ServiceMap)
  | stored (call : Call)
  | returned (call : Call) (answer : Bool)

def Stage.call : Stage → Call
  | called c => c
  | loaded c _ => c
  | stored c => c
  | returned c _ => c

/-- The next step of a call.  `delete` returns at once when the port is not there. -/
def next (r : ServiceRegistry) : Stage → ServiceRegistry × Stage
  | .called (.upsert service) => (r, .loaded (.upsert service) r.byPort)
  | .called (.delete port) =>
      if r.byPort.containsKey port then (r, .loaded (.delete port) r.byPort)
      else (r, .returned (.delete port) false)
  | .loaded call current => ({ r with byPort := call.apply current }, .stored call)
  | .stored call => ({ r with generation := r.generation + 1 }, .returned call true)
  | .returned call answer => (r, .returned call answer)

theorem call_next (r : ServiceRegistry) (stage : Stage) : (next r stage).2.call = stage.call := by
  cases stage with
  | called c =>
      cases c with
      | upsert service => rfl
      | delete port =>
          simp only [next]
          split_ifs <;> rfl
  | _ => rfl

/-- A call has taken effect once it has stored its map, or has found nothing to delete. -/
def Stage.Effective : Stage → Prop
  | stored _ => True
  | returned _ _ => True
  | _ => False

section

variable {ι : Type} [DecidableEq ι]

/-- The registry with its callers. -/
abbrev Callers (ι : Type) := Pool ι ServiceRegistry Stage

def Callers.start (r : ServiceRegistry) (calls : ι → Call) : Callers ι :=
  ⟨r, fun i ↦ .called (calls i)⟩

/-- The map after all calls of `order`, one after the other. -/
def serially (m : ServiceMap) (calls : ι → Call) (order : List ι) : ServiceMap :=
  order.foldl (fun m i ↦ (calls i).apply m) m

/-- The calls of `order` give the map, and a port deleted in it is absent unless a later
call brings it back. -/
structure Serial (calls : ι → Call) (m : ServiceMap) (p : Callers ι) (order : List ι) : Prop where
  nodup : order.Nodup
  map : p.shared.byPort = serially m calls order
  deleted : ∀ i port, p.locals i = .returned (.delete port) true →
    p.shared.byPort port = none ∨ ∃ before after, order = before ++ i :: after ∧
      ∃ j ∈ after, ∃ service, calls j = .upsert service ∧ service.port = port

/-- When all calls have returned, they have taken effect in some order. -/
def NoLostUpdate (r : ServiceRegistry) (calls : ι → Call) (schedule : List ι) : Prop :=
  let p := runFrom (Pool.step next) (Callers.start r calls) schedule
  (∀ i, ∃ answer, p.locals i = .returned (calls i) answer) →
    ∃ order, (∀ i, i ∈ order) ∧ Serial calls r.byPort p order

/-- A call that stores its map finds the one it has loaded. -/
def StoresFresh (p : Callers ι) (i : ι) : Prop :=
  ∀ call current, p.locals i = .loaded call current → p.shared.byPort = current

/-! ## Calls in the order of their stores -/

/-- The calls that have taken effect, in order. -/
structure Ordered (calls : ι → Call) (m : ServiceMap) (p : Callers ι) (order : List ι) : Prop where
  nodup : order.Nodup
  call : ∀ i, (p.locals i).call = calls i
  mem_iff : ∀ i, i ∈ order ↔ (p.locals i).Effective
  map : p.shared.byPort = serially m calls order
  deleted : ∀ i port, calls i = .delete port → i ∈ order → p.shared.byPort port = none ∨
    ∃ before after, order = before ++ i :: after ∧
      ∃ j ∈ after, ∃ service, calls j = .upsert service ∧ service.port = port

variable {calls : ι → Call} {m : ServiceMap} {p : Callers ι} {order : List ι}

omit [DecidableEq ι] in
theorem serially_append (order : List ι) (i : ι) :
    serially m calls (order ++ [i]) = (calls i).apply (serially m calls order) := by
  simp [serially]

/-- A step that keeps the map and the effect of its caller. -/
theorem Ordered.quiet (h : Ordered calls m p order) {i : ι}
    (hmap : (next p.shared (p.locals i)).1.byPort = p.shared.byPort)
    (heffect : (next p.shared (p.locals i)).2.Effective ↔ (p.locals i).Effective) :
    Ordered calls m (p.step next i) order where
  nodup := h.nodup
  call := Pool.forall_locals_step (Q := fun i (l : Stage) ↦ l.call = calls i)
    (by rw [call_next, h.call]) fun j _ ↦ h.call j
  mem_iff := Pool.forall_locals_step (Q := fun i (l : Stage) ↦ i ∈ order ↔ l.Effective)
    ((h.mem_iff i).trans heffect.symm) fun j _ ↦ h.mem_iff j
  map := by rw [Pool.shared_step, hmap, h.map]
  deleted := by
    rw [Pool.shared_step, hmap]
    exact h.deleted

/-- A step that takes effect on the current map. -/
theorem Ordered.effect (h : Ordered calls m p order) {i : ι}
    (hmap : (next p.shared (p.locals i)).1.byPort = (calls i).apply p.shared.byPort)
    (hbefore : ¬ (p.locals i).Effective) (hafter : (next p.shared (p.locals i)).2.Effective) :
    Ordered calls m (p.step next i) (order ++ [i]) where
  nodup := by
    have hnot : i ∉ order := fun hi ↦ hbefore ((h.mem_iff i).mp hi)
    exact List.nodup_append.mpr ⟨h.nodup, by simp, fun a ha b hb heq ↦
      hnot (List.mem_singleton.mp hb ▸ heq ▸ ha)⟩
  call := Pool.forall_locals_step (Q := fun i (l : Stage) ↦ l.call = calls i)
    (by rw [call_next, h.call]) fun j _ ↦ h.call j
  mem_iff := Pool.forall_locals_step (Q := fun j (l : Stage) ↦ j ∈ order ++ [i] ↔ l.Effective)
    (by simp [hafter]) fun j hj ↦ by simp [h.mem_iff j, hj]
  map := by rw [Pool.shared_step, hmap, h.map, serially_append]
  deleted := by
    intro j port hj hmem
    rw [Pool.shared_step, hmap]
    rcases List.mem_append.mp hmem with hmem | hmem
    · rcases h.deleted j port hj hmem with habsent | ⟨before, after, horder, later⟩
      · cases hcall : calls i with
        | upsert service =>
            by_cases hport : service.port = port
            · obtain ⟨before, after, rfl⟩ := List.append_of_mem hmem
              exact .inr ⟨before, after ++ [i], by simp, i, by simp, service, hcall, hport⟩
            · left
              simpa [Call.apply, ServiceMap.insert, Function.update_of_ne (Ne.symm hport)]
                using habsent
        | delete q =>
            left
            by_cases hport : port = q
            · simp [Call.apply, ServiceMap.remove, hport]
            · simpa [Call.apply, ServiceMap.remove, Function.update_of_ne hport] using habsent
      · obtain ⟨k, hk, hupsert⟩ := later
        exact .inr ⟨before, after ++ [i], by simp [horder], k, List.mem_append_left _ hk, hupsert⟩
    · obtain rfl := List.mem_singleton.mp hmem
      left
      simp [hj, Call.apply, ServiceMap.remove]

/-- The step lemma. -/
theorem Ordered.step (h : Ordered calls m p order) (i : ι) (hfresh : StoresFresh p i) :
    ∃ order', Ordered calls m (p.step next i) order' := by
  have hcall := h.call i
  cases hstage : p.locals i with
  | called c =>
      rw [hstage] at hcall
      cases c with
      | upsert service => exact ⟨order, h.quiet (by rw [hstage]; rfl) (by rw [hstage]; rfl)⟩
      | delete port =>
          cases hkey : p.shared.byPort.containsKey port with
          | true =>
              refine ⟨order, h.quiet ?_ ?_⟩
              · simp [hstage, next, hkey]
              · simp [hstage, next, hkey, Stage.Effective]
          | false =>
              refine ⟨_, h.effect (i := i) ?_ ?_ ?_⟩
              · simp only [hstage, next, hkey, ← hcall, Stage.call, Call.apply]
                exact (ServiceMap.remove_of_not_containsKey hkey).symm
              · simp [hstage, Stage.Effective]
              · simp [hstage, next, hkey, Stage.Effective]
  | loaded c current =>
      rw [hstage] at hcall
      have hcurrent := hfresh c current hstage
      refine ⟨_, h.effect (i := i) ?_ ?_ ?_⟩
      · simp [hstage, next, ← hcall, Stage.call, hcurrent]
      · simp [hstage, Stage.Effective]
      · simp [hstage, next, Stage.Effective]
  | stored c => exact ⟨order, h.quiet (by rw [hstage]; rfl) (by rw [hstage]; rfl)⟩
  | returned c answer => exact ⟨order, h.quiet (by rw [hstage]; rfl) (by rw [hstage]; rfl)⟩

theorem noLostUpdate_of_storesFresh (r : ServiceRegistry) (calls : ι → Call) (schedule : List ι)
    (hfresh : Along (Pool.step next) StoresFresh (Callers.start r calls) schedule) :
    NoLostUpdate r calls schedule := by
  have hstart : ∃ order, Ordered calls r.byPort (Callers.start r calls) order :=
    ⟨[], List.nodup_nil, fun _ ↦ rfl, fun _ ↦ by simp [Callers.start, Stage.Effective], rfl,
      by simp⟩
  obtain ⟨order, h⟩ := invariant_runFrom
    (I := fun p ↦ ∃ order, Ordered calls r.byPort p order)
    (fun p i hp hi ↦ hp.elim fun _ ho ↦ ho.step i hi) hstart hfresh
  intro hreturned
  have hall : ∀ i, i ∈ order := fun i ↦ by
    obtain ⟨answer, hi⟩ := hreturned i
    rw [h.mem_iff]
    exact hi ▸ trivial
  refine ⟨order, hall, h.nodup, h.map, fun i port hi ↦ h.deleted i port ?_ (hall i)⟩
  rw [← h.call i]
  exact congrArg Stage.call hi

end

/-! ## Runs -/

def serviceOn (port : UInt16) : ServiceConfig := { port, name := "web" }

/-- Two services are added and the first is deleted, one call after the other. -/
def orderlyCalls : Fin 3 → Call
  | 0 => .upsert (serviceOn 80)
  | 1 => .upsert (serviceOn 443)
  | 2 => .delete 80

def orderlySchedule : List (Fin 3) := [0, 0, 0, 1, 1, 1, 2, 2, 2]

theorem noLostUpdate_orderlySchedule :
    (runFrom (Pool.step next) (Callers.start ⟨fun _ ↦ none, 1⟩ orderlyCalls)
        orderlySchedule).shared.byPort 443 = some (serviceOn 443) ∧
      NoLostUpdate ⟨fun _ ↦ none, 1⟩ orderlyCalls orderlySchedule := by
  refine ⟨by decide, noLostUpdate_of_storesFresh ⟨fun _ ↦ none, 1⟩ orderlyCalls orderlySchedule ?_⟩
  refine ⟨?_, ?_, ?_, ?_, ?_, ?_, ?_, ?_, ?_, trivial⟩ <;> rintro call current ⟨⟩ <;> rfl

/-- Both calls load the map before either of them stores its own. -/
def racingCalls : Fin 2 → Call
  | 0 => .upsert (serviceOn 80)
  | 1 => .upsert (serviceOn 443)

def racingSchedule : List (Fin 2) := [0, 1, 0, 1, 0, 1]

theorem not_noLostUpdate_racingSchedule :
    ¬ NoLostUpdate ⟨fun _ ↦ none, 1⟩ racingCalls racingSchedule := by
  intro h
  obtain ⟨order, hall, hserial⟩ := h (by
    intro i
    fin_cases i <;> exact ⟨true, rfl⟩)
  have hperm : order.Perm [0, 1] :=
    (List.perm_ext_iff_of_nodup hserial.nodup (by decide)).mpr fun i ↦ by
      fin_cases i <;> simp [hall]
  obtain ⟨i, j, rfl⟩ := List.length_eq_two.mp hperm.length_eq
  have hlost := congrFun hserial.map 80
  have hnodup := hserial.nodup
  revert hlost hnodup
  clear hall hserial hperm h
  fin_cases i <;> fin_cases j <;> decide

end Bazalt.Services
