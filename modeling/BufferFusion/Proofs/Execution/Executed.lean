import BufferFusion.Proofs.Execution.Bindings
import BufferFusion.Proofs.Execution.Outputs

/-!
# Executing a network

An execution taken apart into its steps, and tensors bound to inputs one after the other.
-/
namespace BufferFusion

open Graph

namespace Network

variable {w w' u : Network} {r : Graph} {values : InputValues} {e : Execution} {os : List Output}

/-- An execution up to the reading of its outputs. -/
structure Runs (w : Network) (r : Graph) (values : InputValues) (e : Execution) : Prop where
  resolve : w.program.graph.resolve w.inputs = (r, .ok values)
  recheck : r.recheck .standard = (e.graph, .ok e.report)
  run : ∃ plan a b, BufferPlan.ofGraph e.graph = .ok plan ∧
    plan.allocate w.allocator = (a, .ok b) ∧ e.graph.run b values = (e.bindings, .ok ())

theorem runs_of_execute (h : w.execute = (w', .ok os)) :
    ∃ r values e, w.Runs r values e ∧ e.outputs = .ok os ∧ w'.last = some e := by
  simp only [execute] at h
  split at h
  · cases (Prod.mk.inj h).2
  next g values report plan hprepare =>
  obtain ⟨⟨g', values', report'⟩, hp, hprepare⟩ := Result.bind_eq_ok.1 hprepare
  obtain ⟨plan', hplan, hprepare⟩ := Result.bind_eq_ok.1 hprepare
  obtain ⟨rfl, rfl, rfl, rfl⟩ : g' = g ∧ values' = values ∧ report' = report ∧ plan' = plan := by
    simpa [pure, Except.pure] using hprepare
  rw [prepare] at hp
  cases hresolve : w.program.graph.resolve w.inputs with
  | mk r found =>
  rw [hresolve] at hp
  cases found with
  | error cause => cases hp
  | ok known =>
  cases hrecheck : r.recheck .standard with
  | mk g answer =>
  simp only [bind, Except.bind, hrecheck] at hp
  cases answer with
  | error cause => cases hp
  | ok seen =>
  obtain ⟨rfl, rfl, rfl⟩ : g = g' ∧ known = values' ∧ seen = report' := by
    simpa [pure, Except.pure] using hp
  cases halloc : plan'.allocate w.allocator with
  | mk a allocated =>
  simp only [halloc] at h
  split at h
  · cases (Prod.mk.inj h).2
  next e outputs houtcome =>
  obtain ⟨rfl, ho⟩ := Prod.mk.inj h
  obtain rfl := Except.ok.inj ho
  obtain ⟨b, rfl, hbound⟩ := Result.bind_eq_ok.1 houtcome
  obtain ⟨⟨⟩, hdone, hread⟩ := Result.bind_eq_ok.1 hbound
  obtain ⟨os, houts, hread⟩ := Result.bind_eq_ok.1 hread
  obtain ⟨rfl, rfl⟩ := Prod.mk.inj (Except.ok.inj hread)
  refine ⟨r, known, ⟨g, (g.run b known).1, seen⟩,
    ⟨hresolve, hrecheck, plan', a, b, hplan, halloc, ?_⟩, houts, rfl⟩
  rw [← hdone]

theorem Runs.execute (k : w.Runs r values e) : w.execute.2 = e.outputs := by
  obtain ⟨hresolve, hrecheck, plan, a, b, hplan, halloc, hrun⟩ := k
  simp only [Network.execute, prepare, hresolve, hrecheck, hplan, halloc, hrun, bind, Except.bind,
    pure, Except.pure]
  cases e.outputs <;> rfl

theorem execute_of_recheck {cause : Error} (hresolve : w.program.graph.resolve w.inputs = (r, .ok values))
    (h : (r.recheck .standard).2 = .error cause) : w.execute.2 = .error cause := by
  simp only [Network.execute, prepare, hresolve, h, bind, Except.bind]

theorem execute_of_plan {g : Graph} {report : RecheckReport} {cause : Error}
    (hresolve : w.program.graph.resolve w.inputs = (r, .ok values))
    (hrecheck : r.recheck .standard = (g, .ok report))
    (h : BufferPlan.ofGraph g = .error cause) : w.execute.2 = .error cause := by
  simp only [Network.execute, prepare, hresolve, hrecheck, h, bind, Except.bind, pure, Except.pure]

/-! ### Binding tensors -/

theorem setInput_eq_ok {name : String} {t : Tensor} : w.setInput name t = .ok w' ↔
    ∃ id n declared realized, w.program.graph.names.lookup name = some id ∧
      w.program.graph.node? id = some n ∧ n.op = .input declared ∧ t.element = declared.element ∧
        declared.realize t.shape = .ok realized ∧
          w' = { w with inputs := (id, t) :: w.inputs.filter (·.1 != id) } := by
  have hfind : ∀ {id}, w.program.graph.find name = .ok id ↔
      w.program.graph.names.lookup name = some id := by
    intro id
    rw [find]
    cases w.program.graph.names.lookup name <;> simp
  rw [setInput, Result.bind_eq_ok]
  simp only [hfind, Result.bind_eq_ok, get_eq_ok]
  constructor
  · rintro ⟨id, hid, n, hn, h⟩
    split at h
    · next declared hop =>
      split at h
      · cases h
      · next helem =>
        obtain ⟨realized, hreal, h⟩ := Result.bind_eq_ok.1 h
        exact ⟨id, n, declared, realized, hid, hn, hop, not_not.1 helem, hreal,
          (Except.ok.inj h).symm⟩
    · cases h
  · rintro ⟨id, n, declared, realized, hid, hn, hop, helem, hreal, rfl⟩
    refine ⟨id, hid, n, hn, ?_⟩
    simp only [hop, if_neg (not_not.2 helem), hreal]
    rfl

/-- Binds tensors to inputs one after the other. -/
def setInputs (w : Network) : List (String × Tensor) → Result Network
  | [] => .ok w
  | (name, t) :: rest => do setInputs (← w.setInput name t) rest

/-- What is bound in one network is bound in another that has the same inputs. -/
theorem setInputs_congr {bindings : List (String × Tensor)} (hinputs : u.inputs = w.inputs)
    (hkept : ∀ {name id n d}, w.program.graph.names.lookup name = some id →
      w.program.graph.node? id = some n → n.op = .input d →
        u.program.graph.names.lookup name = some id ∧
          ∃ m, u.program.graph.node? id = some m ∧ m.op = .input d)
    (h : w.setInputs bindings = .ok w') : ∃ u', u.setInputs bindings = .ok u' ∧
      u'.inputs = w'.inputs ∧ w'.program = w.program ∧ u'.program = u.program ∧
        u'.allocator = u.allocator := by
  induction bindings generalizing w u with
  | nil =>
    obtain rfl := Except.ok.inj h
    exact ⟨u, rfl, hinputs, rfl, rfl, rfl⟩
  | cons q rest ih =>
    obtain ⟨name, t⟩ := q
    obtain ⟨w₁, h₁, h⟩ := Result.bind_eq_ok.1 h
    obtain ⟨id, n, d, l, hlookup, hn, hop, helem, hl, rfl⟩ := setInput_eq_ok.1 h₁
    obtain ⟨hlookup', m, hm, hmop⟩ := hkept hlookup hn hop
    have hu := setInput_eq_ok.2 ⟨id, m, d, l, hlookup', hm, hmop, helem, hl, rfl⟩
    obtain ⟨u', hu', hin, hw', hprog, halloc⟩ :=
      ih (w := { w with inputs := (id, t) :: w.inputs.filter (·.1 != id) })
        (u := { u with inputs := (id, t) :: u.inputs.filter (·.1 != id) }) (by simp [hinputs])
        hkept h
    exact ⟨u', Result.bind_eq_ok.2 ⟨_, hu, hu'⟩, hin, hw', hprog, halloc⟩

end Network

end BufferFusion
