import BufferFusion.Proofs.Fusion.Fused

/-!
# Rechecked graphs

What rechecking leaves, on any resolved graph: the decisions that are kept hold of the concrete
layouts, and the nodes that were demoted write a layout without padding.
-/
namespace BufferFusion

open Graph

variable {r g g' : Graph} {id x : NodeId} {done ids : List NodeId} {p : Proposal}

theorem Recheck.Renewed.placed (a : Recheck.Renewed g id p g') : g.Placed id p g' :=
  ⟨a.judged, a.wiring, a.state, a.layout⟩

/-- A new proposal is about the same buffer. -/
theorem Graph.Linked.into_eq (k : g.Linked) (hs : g.Sound) {into : NodeId} {offset : Nat}
    (hst : g.state? id = some (.optimized into offset))
    (hj : FusionRules.standard.judge g id = .ok (.eligible p)) : p.into = into := by
  obtain ⟨n, hn, ⟨into', input, output, hv⟩ | ⟨axis, output, extents, hc⟩⟩ := judge_eligible hj
  all_goals obtain rfl := hs.id_eq hn
  · rw [hv.into]
    exact (k.view_of_proposal hs hst hn hv).1.symm
  · rw [hc.into]
    exact (k.inPlace_of_joins hst ⟨n, hn, hc.op⟩).1.symm

theorem Graph.Linked.nodup_of_concatenation (k : g.Linked) (hs : g.Sound) {into : NodeId}
    {offset : Nat} (hst : g.state? id = some (.optimized into offset)) (n : Node) (axis : Nat)
    (hn : g.node? id = some n) (hop : n.op = .concatenation axis) : n.inputs.Nodup := by
  obtain ⟨rfl, rfl, -⟩ := k.inPlace_of_joins hst ⟨n, hn, hop⟩
  exact k.inputs_nodup hs hn hst

/-- A graph in the middle of rechecking that started from the resolved graph `r`. -/
structure Rechecked (r g : Graph) (done : List NodeId) : Prop where
  rechecking : Rechecking r g done
  closed : ∀ {a c}, r.Feeds a c → c ∈ done → a ∈ done
  padded : Padded r g done
  stands : ∀ {x into offset}, x ∈ done → g.state? x = some (.optimized into offset) →
    ∃ p, g.Stands x p
  /-- Decisions are kept or taken back, none is new. -/
  kept : ∀ {x into offset}, g.state? x = some (.optimized into offset) →
    ∃ offset', r.state? x = some (.optimized into offset')
  untouched : ∀ x, x ∉ done → g.state? x = r.state? x

namespace Rechecked

variable (k : Rechecked r g done)

include k

theorem sound (hr : r.Sound) : g.Sound := k.rechecking.wiring.symm.sound hr

theorem skip (hready : ∀ a, r.Feeds a id → a ∈ done)
    (hst : ∀ into offset, g.state? id ≠ some (.optimized into offset)) :
    Rechecked r g (id :: done) where
  rechecking := by
    refine ⟨k.rechecking.wiring, k.rechecking.linked, fun c hc => ?_⟩
    rcases List.mem_cons.1 hc with rfl | hc
    · exact fun m i axis b e he => absurd (k.rechecking.linked.owner he).1 (hst _ _)
    · exact k.rechecking.placed c hc
  closed := closed_cons k.closed hready
  padded := k.padded.congr (.refl g) (fun _ => rfl) (fun _ _ => rfl) id
  stands := by
    intro x into offset hx hopt
    rcases List.mem_cons.1 hx with rfl | hx
    · exact absurd hopt (hst into offset)
    · exact k.stands hx hopt
  kept := k.kept
  untouched := fun x hx => k.untouched x fun hd => hx (List.mem_cons_of_mem _ hd)

theorem renew (hr : r.Sound) (hnew : id ∉ done) (hready : ∀ a, r.Feeds a id → a ∈ done)
    {into : NodeId} {offset : Nat} (hst : g.state? id = some (.optimized into offset))
    (a : Recheck.Renewed g id p g') (hrec : Rechecking r g' (id :: done)) :
    Rechecked r g' (id :: done) := by
  have hs := k.sound hr
  refine ⟨hrec, closed_cons k.closed hready, k.padded.place hs hnew a.placed, ?_, ?_, ?_⟩
  · intro x into' offset' hx hopt
    by_cases hid : x = id
    · subst hid
      exact ⟨p, a.placed.stands hs (k.rechecking.linked.nodup_of_concatenation hs hst)⟩
    · have hd := (List.mem_cons.1 hx).resolve_left hid
      rw [a.placed.state_eq hid] at hopt
      obtain ⟨q, hq⟩ := k.stands hd hopt
      exact ⟨q, a.placed.stands_of_ne hs hq hid ⟨into', offset', hopt⟩
        fun hf => hnew (k.closed (k.rechecking.wiring.feeds hf) hd)⟩
  · intro x into' offset' hopt
    by_cases hid : x = id
    · subst hid
      rw [a.state, state?_setState, if_pos rfl, hst, Option.map_some, Proposal.state,
        k.rechecking.linked.into_eq hs hst a.judged] at hopt
      obtain ⟨rfl, -⟩ := FusionState.optimized.inj (Option.some.inj hopt)
      exact k.kept hst
    · rw [a.placed.state_eq hid] at hopt
      exact k.kept hopt
  · intro x hx
    rw [List.mem_cons, not_or] at hx
    rw [a.placed.state_eq hx.1, k.untouched x hx.2]

theorem demote (hr : r.Sound) (hnew : id ∉ done) (hready : ∀ a, r.Feeds a id → a ∈ done)
    (hrec : Rechecking r (Recheck.demote g id) (id :: done)) :
    Rechecked r (Recheck.demote g id) (id :: done) := by
  have w := (Recheck.sameWiring_demote g id).symm
  have hstate : ∀ x, x ≠ id → (Recheck.demote g id).state? x = g.state? x := by
    intro x hx
    rw [Recheck.state?_demote, state?_setState, if_neg (Ne.symm hx)]
  have hopt : ∀ {x into offset},
      (Recheck.demote g id).state? x = some (.optimized into offset) → x ≠ id := by
    rintro x into offset hx rfl
    rw [Recheck.state?_demote, state?_setState, if_pos rfl] at hx
    obtain ⟨_, -, hx⟩ := Option.map_eq_some_iff.1 hx
    cases hx
  have hne : ∀ x ∈ done, x ≠ id := fun x hx he => hnew (he ▸ hx)
  refine ⟨hrec, closed_cons k.closed hready, ?_, ?_, ?_, ?_⟩
  · exact k.padded.congr w (Recheck.layout_demote g id) (fun x hx => hstate x (hne x hx)) id
  · intro x into offset hx hx'
    have hid := hopt hx'
    rw [hstate x hid] at hx'
    obtain ⟨p, hp⟩ := k.stands ((List.mem_cons.1 hx).resolve_left hid) hx'
    exact ⟨p, hp.congr (k.sound hr) w (Recheck.layout_demote ..) fun a _ => Recheck.layout_demote ..⟩
  · intro x into offset hx
    rw [hstate x (hopt hx)] at hx
    exact k.kept hx
  · intro x hx
    rw [List.mem_cons, not_or] at hx
    rw [hstate x hx.1, k.untouched x hx.2]

theorem step (hr : r.Sound) (hnew : id ∉ done) (hready : ∀ a, r.Feeds a id → a ∈ done)
    {into : NodeId} {offset : Nat} (hst : g.state? id = some (.optimized into offset))
    {demoted : List NodeId} (step : Recheck.Step g id g' demoted) :
    Rechecked r g' (id :: done) := by
  have hrec := k.rechecking.step hr hst step
  cases step with
  | renew a => exact k.renew hr hnew hready hst a hrec
  | demote _ => exact k.demote hr hnew hready hrec

end Rechecked

/-- Before rechecking nothing has padding. -/
theorem rechecked_of_linked (hl : r.Linked)
    (hpad : ∀ {x l}, r.layout x = .ok l → l.padding = .zero l.rank ∧ l.isValid = true) :
    Rechecked r r [] where
  rechecking := ⟨.refl r, hl, by simp⟩
  closed := by simp
  padded := .initial hpad
  stands := by simp
  kept := fun hx => ⟨_, hx⟩
  untouched := fun _ _ => rfl

/-- After a recheck every decision that is left stands. -/
theorem rechecked_recheck (hr : r.Sound) (hl : r.Linked)
    (hpad : ∀ {x l}, r.layout x = .ok l → l.padding = .zero l.rank ∧ l.isValid = true)
    {report : RecheckReport} (h : r.recheck .standard = (g, .ok report)) :
    ∃ done, (∀ x, r.contains x = true → x ∈ done) ∧ Rechecked r g done := by
  refine ⟨r.order.reverse ++ [], fun x hx => by simpa using hr.mem_order.2 hx, ?_⟩
  refine Recheck.along_induction (h := r) (I := fun g done _ => Rechecked r g done)
    ⟨0, []⟩ ?_ ?_ hr.ordered (rechecked_of_linked hl hpad) h
  · exact fun k _ hready hst => k.skip hready hst
  · exact fun k hnew hready hst step => k.step hr hnew hready hst step

/-- Rechecking changes no operation. -/
theorem op_recheckAlong (t : FusionRules) (ids : List NodeId) (g : Graph) (x : NodeId) :
    ((Recheck.along t ids g).1.node? x).map (·.op) = (g.node? x).map (·.op) := by
  induction ids generalizing g with
  | nil => rfl
  | cons id ids ih =>
    simp only [Recheck.along]
    split
    · rfl
    split
    · exact ih g
    split
    · rfl
    · refine (ih _).trans ?_
      rw [Recheck.renew, op_setState, op_setLayouts, node?_setSharing]
    · refine (ih _).trans ?_
      rw [Recheck.demote, op_setAssumption, op_setState, node?_setSharing]

end BufferFusion
