import BufferFusion.Proofs.Graph.Rewire
import BufferFusion.Proofs.Graph.Wiring

/-!
# Built graphs

The graphs that the operations of a graph make, in any order and with any arguments. All of them
are sound; those that were only built, with nothing analyzed so far, are fresh as well.
-/
namespace BufferFusion.Graph

variable {g g' : Graph}

/-- Graphs made by adding, splitting, marking and replacing nodes. -/
inductive Built : Graph → Prop
  | empty : Built empty
  | add {g g' : Graph} {name op inputs id} : Built g → g.add name op inputs = .ok (g', id) → Built g'
  | split {g : Graph} (name input axis sizes) : Built g → Built (g.split name input axis sizes).1
  | mark {g g' : Graph} {id} : Built g → g.mark id = .ok g' → Built g'
  | replace {g g' : Graph} {old new rewire} : Built g → g.replace old new rewire = .ok g' → Built g'

/-- Graphs that may also have been analyzed: layouts, states, assumptions and shared buffers are
whatever somebody put there. -/
inductive Reachable : Graph → Prop
  | empty : Reachable empty
  | add {g g' : Graph} {name op inputs id} : Reachable g →
      g.add name op inputs = .ok (g', id) → Reachable g'
  | split {g : Graph} (name input axis sizes) : Reachable g →
      Reachable (g.split name input axis sizes).1
  | mark {g g' : Graph} {id} : Reachable g → g.mark id = .ok g' → Reachable g'
  | replace {g g' : Graph} {old new rewire} : Reachable g →
      g.replace old new rewire = .ok g' → Reachable g'
  | setLayout {g : Graph} (id l) : Reachable g → Reachable (g.setLayout id l)
  | setState {g : Graph} (id state) : Reachable g → Reachable (g.setState id state)
  | setAssumption {g : Graph} (id assumption) : Reachable g → Reachable (g.setAssumption id assumption)
  | setSharing {g : Graph} (sharing) : Reachable g → Reachable (g.setSharing sharing)

theorem Reachable.sound (h : g.Reachable) : g.Sound := by
  induction h with
  | empty => exact sound_empty
  | add _ hadd ih => exact ih.add hadd
  | split name input axis sizes _ ih => exact ih.split name input axis sizes
  | mark _ hm ih => exact ih.mark hm
  | replace _ hr ih => exact ih.replace hr
  | setLayout id l _ ih => exact (sameWiring_setLayout _ id l).symm.sound ih
  | setState id s _ ih => exact (sameWiring_setState _ id s).symm.sound ih
  | setAssumption id a _ ih => exact (sameWiring_setAssumption _ id a).symm.sound ih
  | setSharing s _ ih => exact (sameWiring_setSharing _ s).symm.sound ih

theorem Built.reachable (h : g.Built) : g.Reachable := by
  induction h with
  | empty => exact .empty
  | add _ hadd ih => exact .add ih hadd
  | split name input axis sizes _ ih => exact .split name input axis sizes ih
  | mark _ hm ih => exact .mark ih hm
  | replace _ hr ih => exact .replace ih hr

theorem Built.place {name : String} {op : Operation} {inputs : List NodeId} (h : g.Built)
    (hc : g.checkNode name op inputs = .ok ()) : (g.place name op inputs).Built := by
  have hadd : g.add name op inputs = .ok (g.place name op inputs, g.nextId) := by
    rw [Graph.add, hc]
    rfl
  exact .add h hadd

theorem Built.sound (h : g.Built) : g.Sound := h.reachable.sound

/-- Nothing is decided about any node, and no buffer is shared. -/
structure Fresh (g : Graph) : Prop where
  state : ∀ {id n}, g.node? id = some n → n.state = .unanalyzed
  assumption : ∀ {id n}, g.node? id = some n → n.assumption = none
  sharing : g.sharing.edges = []

theorem Fresh.relaid (f : g.Fresh) (r : g.Relaid g') : g'.Fresh := by
  have hnode : ∀ {id n'}, g'.node? id = some n' → ∃ n, g.node? id = some n := fun hn =>
    let ⟨n, hn, _⟩ := r.wiring.symm.node hn
    ⟨n, hn⟩
  refine ⟨?_, ?_, by rw [r.sharing, f.sharing]⟩
  · intro id n' hn'
    obtain ⟨n, hn⟩ := hnode hn'
    have hst := r.state id
    rw [state?, state?, hn, hn', Option.map_some, Option.map_some, f.state hn] at hst
    exact Option.some.inj hst
  · intro id n' hn'
    obtain ⟨n, hn⟩ := hnode hn'
    have ha := r.assumption id
    rw [hn, hn', Option.map_some, Option.map_some, f.assumption hn] at ha
    exact Option.some.inj ha

theorem fresh_empty : empty.Fresh := ⟨by simp [node?, empty], by simp [node?, empty], rfl⟩

theorem Fresh.add (h : g.Fresh) (hs : g.Sound) {name : String} {op : Operation}
    {inputs : List NodeId} {id : NodeId} (hadd : g.add name op inputs = .ok (g', id)) :
    g'.Fresh := by
  obtain ⟨_, -, hok⟩ := Result.bind_eq_ok.1 hadd
  obtain ⟨rfl, -⟩ := Prod.mk.inj (Except.ok.inj hok)
  refine ⟨?_, ?_, h.sharing⟩
  all_goals
    intro x n hn
    rcases (node_place_iff hs).1 hn with ⟨-, rfl⟩ | hn
  · rfl
  · exact h.state hn
  · rfl
  · exact h.assumption hn

theorem Fresh.addWindows (h : g.Fresh) (hs : g.Sound) {split : String} {input : NodeId}
    {shape : List Nat} {axis i start : Nat} {sizes : List Nat} :
    (g.addWindows split input shape axis i start sizes).1.Fresh := by
  induction sizes generalizing g i start with
  | nil => exact h
  | cons size sizes ih =>
    simp only [Graph.addWindows]
    split
    · exact h
    · next hadd => exact ih (h.add hs hadd) (hs.add hadd)

theorem Fresh.replaced (h : g.Fresh) {old new : NodeId} (hrep : g.Replaced old new g') :
    g'.Fresh := by
  refine ⟨?_, ?_, by simp [hrep.sharing, Sharing.removeNode, h.sharing]⟩
  all_goals
    intro x n' hn'
    obtain ⟨-, n, hn, rfl⟩ := hrep.node_iff.1 hn'
  · exact (h.state hn : n.state = _)
  · exact (h.assumption hn : n.assumption = _)

/-- What was only built is not analyzed. -/
theorem Built.fresh (h : g.Built) : g.Fresh := by
  induction h with
  | empty => exact fresh_empty
  | add hb hadd ih => exact ih.add hb.sound hadd
  | split name input axis sizes hb ih =>
    simp only [Graph.split]
    split
    · exact ih
    · exact ih.addWindows hb.sound
  | mark hb hm ih =>
    obtain ⟨n, -, hok⟩ := Result.bind_eq_ok.1 hm
    obtain rfl := Except.ok.inj hok
    split
    · exact ih
    · exact ⟨ih.state, ih.assumption, ih.sharing⟩
  | replace hb hr ih => exact ih.replaced (hb.sound.replaced hr)

/-- Two transposes of one input, joined along the first axis and read as a single row. -/
def sample : Graph :=
  ((((empty.place "x" (.input (.plain (.ofSizes [2, 2]) .f32)) []).place "a" (.permute [1, 0])
    [0]).place "b" (.permute [1, 0]) [0]).place "joined" (.concatenation 0) [1, 2]).place "row"
      (.reshape (.pattern [-1]) false) [3]

theorem built_sample : sample.Built :=
  Built.empty.place rfl |>.place rfl |>.place rfl |>.place rfl |>.place rfl

end BufferFusion.Graph
