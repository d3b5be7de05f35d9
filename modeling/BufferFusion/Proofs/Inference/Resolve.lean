import BufferFusion.Proofs.Inference.Fixpoint
import BufferFusion.Proofs.Inference.Refine

/-!
# Resolving shapes

A graph that an execution has resolved is inferred on what its inputs are bound to, every shape is
known, and whatever compilation knew about a layout is still so.
-/
namespace BufferFusion

namespace Layout

theorem refines_of_firstClash {axis : Nat} {ds : List Dim} {ms : List Nat}
    (hlen : ms.length = ds.length) (h : firstClash axis ds ms = none) :
    List.Forall₂ Dim.Refines (ms.map Dim.known) ds := by
  induction ds generalizing axis ms with
  | nil =>
    obtain rfl := List.eq_nil_of_length_eq_zero hlen
    exact .nil
  | cons d ds ih =>
    obtain _ | ⟨m, ms⟩ := ms
    · cases hlen
    cases d with
    | unknown => exact .cons (Dim.refines_unknown _) (ih (Nat.succ.inj hlen) h)
    | known n =>
      simp only [firstClash] at h
      split at h
      · next he => exact .cons (he ▸ .refl _) (ih (Nat.succ.inj hlen) h)
      · cases h

theorem realize_eq_ok {l l' : Layout} {sizes : List Nat} (h : l.realize sizes = .ok l') :
    l' = { l with shape := .ofSizes sizes } ∧ l'.Refines l := by
  simp only [realize] at h
  split at h
  · cases h
  next hlen =>
  rw [not_not] at hlen
  split at h
  · cases h
  next hclash =>
  obtain rfl := Except.ok.inj h
  exact ⟨rfl, refines_of_firstClash hlen hclash, rfl, rfl⟩

end Layout

namespace Graph

variable {g h r : Graph} {id x : NodeId} {n m : Node} {tensors : List (NodeId × Tensor)}
  {values : InputValues}

theorem Sound.nodes_nodup (hs : g.Sound) : (g.nodes.map (·.id)).Nodup := by
  rw [List.Nodup, List.pairwise_map, nodes, List.pairwise_filterMap, List.pairwise_iff_getElem]
  intro i j hi hj hij a ha b hb
  have hai : g.node? i = some a := node?_eq_some.2 (List.getElem?_eq_some_iff.2 ⟨hi, ha⟩)
  have hbj : g.node? j = some b := node?_eq_some.2 (List.getElem?_eq_some_iff.2 ⟨hj, hb⟩)
  rw [hs.id_eq hai, hs.id_eq hbj]
  exact Nat.ne_of_lt hij

theorem Sound.mem_inputNodes (hs : g.Sound) :
    n ∈ g.inputNodes ↔ g.node? n.id = some n ∧ ∃ d, n.op = .input d := by
  have htag : (n.tag == Tag.input) = true ↔ ∃ d, n.op = .input d := by
    rw [Node.tag]
    cases n.op <;> simp [Operation.tag]
  rw [inputNodes, List.mem_filter, htag]
  refine and_congr_left fun _ => ⟨fun hn => hs.node_of_mem hn, fun hn => ?_⟩
  exact mem_nodes.2 ⟨_, hn⟩

/-- What binding a tensor makes of an input: its layout there, and the values it brings. -/
def Bound (tensors : List (NodeId × Tensor)) (n : Node) (realized : Layout)
    (lanes : List Float) : Prop :=
  ∃ declared t, n.op = .input declared ∧ tensors.lookup n.id = some t ∧
    bindInput n declared t = .ok (realized, lanes)

theorem node?_setOp (g : Graph) (id x : NodeId) (op : Operation) : (g.setOp id op).node? x =
    if id = x then (g.node? x).map ({ · with op := op }) else g.node? x := node?_adjust g id x _

theorem bindInputs_eq_ok {ns : List Node} (hnodup : (ns.map (·.id)).Nodup)
    (hns : ∀ n ∈ ns, ∃ d, n.op = .input d)
    (h : g.bindInputs tensors ns = (r, .ok values)) :
    (∀ x, x ∉ ns.map (·.id) → r.node? x = g.node? x ∧ values.lookup x = none) ∧
      ∀ n ∈ ns, ∃ realized lanes, Bound tensors n realized lanes ∧
        r.node? n.id = (g.node? n.id).map ({ · with op := .input realized }) ∧
        values.lookup n.id = some lanes := by
  induction ns generalizing g values with
  | nil =>
    obtain ⟨rfl, hv⟩ := Prod.mk.inj h
    obtain rfl := Except.ok.inj hv
    simp
  | cons n ns ih =>
    obtain ⟨hnew, hnodup⟩ := List.nodup_cons.1 hnodup
    obtain ⟨d, hop⟩ := hns n List.mem_cons_self
    simp only [bindInputs, hop, Operation.declared?] at h
    split at h
    · next hd => cases hd
    · cases (Prod.mk.inj h).2
    next declared t hd ht =>
    obtain rfl := Option.some.inj hd
    split at h
    · cases (Prod.mk.inj h).2
    next realized lanes hb =>
    cases hrec : (g.setOp n.id (.input realized)).bindInputs tensors ns with
    | mk r' res =>
      rw [hrec] at h
      cases res with
      | error e => cases (Prod.mk.inj h).2
      | ok rest =>
        obtain ⟨rfl, hv⟩ := Prod.mk.inj h
        obtain rfl := Except.ok.inj hv
        obtain ⟨h₁, h₂⟩ := ih hnodup (fun m hm => hns m (List.mem_cons_of_mem _ hm)) hrec
        refine ⟨fun x hx => ?_, fun m hm => ?_⟩
        · rw [List.map_cons, List.mem_cons, not_or] at hx
          obtain ⟨h₃, h₄⟩ := h₁ x hx.2
          refine ⟨by rw [h₃, node?_setOp, if_neg (Ne.symm hx.1)], ?_⟩
          rw [List.lookup_cons, (beq_eq_false_iff_ne.2 hx.1 : (x == n.id) = false)]
          exact h₄
        · rcases List.mem_cons.1 hm with rfl | hm
          · refine ⟨realized, lanes, ⟨_, t, hop, ht, hb⟩, ?_, by simp⟩
            rw [(h₁ m.id hnew).1, node?_setOp, if_pos rfl]
          · obtain ⟨l, xs, hb', hn', hl⟩ := h₂ m hm
            have hne : m.id ≠ n.id := fun he => hnew (List.mem_map.2 ⟨m, hm, he⟩)
            refine ⟨l, xs, hb', ?_, ?_⟩
            · rw [hn', node?_setOp, if_neg (Ne.symm hne)]
            · rw [List.lookup_cons, (beq_eq_false_iff_ne.2 hne : (m.id == n.id) = false)]
              exact hl

/-- A graph whose inputs are bound to tensors; nothing else has changed. -/
structure BoundInputs (g : Graph) (tensors : List (NodeId × Tensor)) (values : InputValues)
    (b : Graph) : Prop where
  relaid : g.Relaid b
  input : ∀ {id n d}, g.node? id = some n → n.op = .input d → ∃ realized lanes,
    Bound tensors n realized lanes ∧ b.node? id = some { n with op := .input realized } ∧
      values.lookup id = some lanes
  other : ∀ {id}, (∀ n d, g.node? id = some n → n.op ≠ .input d) →
    b.node? id = g.node? id ∧ values.lookup id = none

theorem Sound.inputNodes_nodup (hs : g.Sound) : (g.inputNodes.map (·.id)).Nodup :=
  hs.nodes_nodup.sublist ((List.filter_sublist).map _)

theorem Sound.boundInputs (hs : g.Sound)
    (h : g.bindInputs tensors g.inputNodes = (r, .ok values)) : BoundInputs g tensors values r := by
  have hrelaid := relaid_bindInputs tensors fun n hn => hs.isInput hn
  rw [h] at hrelaid
  obtain ⟨hfree, hbound⟩ :=
    bindInputs_eq_ok hs.inputNodes_nodup (fun n hn => (hs.mem_inputNodes.1 hn).2) h
  refine ⟨hrelaid, fun {id n d} hn hd => ?_, fun {id} hid => hfree id fun hmem => ?_⟩
  · obtain rfl := hs.id_eq hn
    obtain ⟨realized, lanes, hbd, hnode, hlook⟩ := hbound n (hs.mem_inputNodes.2 ⟨hn, d, hd⟩)
    rw [hn] at hnode
    exact ⟨realized, lanes, hbd, hnode, hlook⟩
  · obtain ⟨n, hn, rfl⟩ := List.mem_map.1 hmem
    obtain ⟨hnode, d, hd⟩ := hs.mem_inputNodes.1 hn
    exact hid n d hnode hd

/-- A graph that an execution has resolved on tensors for the inputs. -/
structure Resolved (g : Graph) (tensors : List (NodeId × Tensor)) (values : InputValues)
    (r : Graph) : Prop where
  relaid : g.Relaid r
  inferred : r.Inferred values
  static : ∀ {id l}, r.layout id = .ok l → l.isStatic = true
  /-- Inputs are bound to tensors, and these are all the values that are known. -/
  bound : ∀ {id n d}, g.node? id = some n → n.op = .input d → ∃ m realized lanes,
    Bound tensors n realized lanes ∧ r.node? id = some m ∧ m.op = .input realized ∧
      values.lookup id = some lanes
  free : ∀ {id}, (∀ n d, g.node? id = some n → n.op ≠ .input d) → values.lookup id = none
  /-- No other operation changes. -/
  same : ∀ {id n m}, g.node? id = some n → r.node? id = some m → (∀ d, n.op ≠ .input d) →
    m.op = n.op

theorem checkResolved_eq_ok (h : g.checkResolved = .ok ()) {l : Layout}
    (hl : g.layout id = .ok l) : l.isStatic = true := by
  obtain ⟨n, hn, hnl⟩ := layout_eq_ok.1 hl
  simp only [checkResolved] at h
  split at h
  · cases h
  next hfind =>
  have := List.find?_eq_none.1 hfind n (mem_nodes.2 ⟨id, hn⟩)
  simpa [hnl] using this

theorem op_eq_of_map (hx : (h.node? x).map (·.op) = (g.node? x).map (·.op))
    (hn : g.node? x = some n) (hm : h.node? x = some m) : m.op = n.op := by
  rw [hn, hm] at hx
  exact Option.some.inj hx

theorem relaid_op_eq (hx : h.node? x = g.node? x) (hn : g.node? x = some n)
    (hm : h.node? x = some m) : m.op = n.op := op_eq_of_map (congrArg _ hx) hn hm

theorem Sound.resolved (hs : g.Sound) (h : g.resolve tensors = (r, .ok values)) :
    g.Resolved tensors values r := by
  have hrelaid := hs.relaid_resolve tensors
  rw [h] at hrelaid
  simp only [resolve] at h
  split at h
  · cases (Prod.mk.inj h).2
  next b values' hb =>
  have k := hs.boundInputs hb
  cases hi : InferenceTable.standard.inferGraph values' b with
  | mk r' res =>
    rw [hi] at h
    obtain ⟨hr', hres⟩ := Prod.mk.inj h
    obtain rfl : r' = r := hr'
    obtain ⟨changed, hc, hres⟩ := Result.bind_eq_ok.1 hres
    obtain rfl : res = .ok changed := hc
    obtain ⟨_, hchk, hres⟩ := Result.bind_eq_ok.1 hres
    obtain rfl := Except.ok.inj hres
    obtain ⟨hri, hinf⟩ := (k.relaid.wiring.sound hs).inferGraph hi
    have hop : ∀ x, (r'.node? x).map (·.op) = (b.node? x).map (·.op) :=
      map_inferGraph (fun _ _ => rfl) hi
    refine ⟨hrelaid, hinf, fun hl => checkResolved_eq_ok hchk hl, ?_, fun hx => (k.other hx).2, ?_⟩
    · intro x n d hn hd
      obtain ⟨realized, lanes, hbd, hnode, hlook⟩ := k.input hn hd
      have := hop x
      rw [hnode, Option.map_some] at this
      obtain ⟨m, hm, hmop⟩ := Option.map_eq_some_iff.1 this
      exact ⟨m, realized, lanes, hbd, hm, hmop, hlook⟩
    · intro x n m hn hm hnot
      have hx : b.node? x = g.node? x := by
        refine (k.other fun n' d hn' => ?_).1
        obtain rfl := Option.some.inj (hn.symm.trans hn')
        exact hnot d
      exact op_eq_of_map ((hop x).trans (congrArg _ hx)) hn hm

/-- The node has a layout that its operation yields, whether or not a pattern could be read. -/
def LaidAt (g : Graph) (id : NodeId) : Prop :=
  ∃ n ins l p, g.node? id = some n ∧ g.Lays n.inputs ins ∧ g.layout id = .ok l ∧
    (p = none ∨ p = g.pattern? [] n) ∧ Infer.Yields p n.op ins l ∧ l.isValid = true

/-- Layouts as compilation leaves them before fusion. -/
def Laid (g : Graph) : Prop := ∀ id, g.contains id = true → g.LaidAt id

theorem Inferred.laid (h : g.Inferred []) : g.Laid := by
  intro id hid
  obtain ⟨n, ins, l, hn, hins, hl, hy, hv⟩ := h id hid
  exact ⟨n, ins, l, _, hn, hins, hl, .inr rfl, hy, hv⟩

/-- Every node has a layout that its operation yields for some pattern. -/
def Yielded (g : Graph) : Prop := ∀ id, g.contains id = true → ∃ n ins l p,
  g.node? id = some n ∧ g.Lays n.inputs ins ∧ g.layout id = .ok l ∧ Infer.Yields p n.op ins l ∧
    l.isValid = true

theorem Inferred.yielded {values : InputValues} (h : g.Inferred values) : g.Yielded := by
  intro id hid
  obtain ⟨n, ins, l, hn, hins, hl, hy, hv⟩ := h id hid
  exact ⟨n, ins, l, _, hn, hins, hl, hy, hv⟩

theorem Laid.yielded (h : g.Laid) : g.Yielded := by
  intro id hid
  obtain ⟨n, ins, l, p, hn, hins, hl, -, hy, hv⟩ := h id hid
  exact ⟨n, ins, l, p, hn, hins, hl, hy, hv⟩

/-- A pattern that was known at compilation has not changed. -/
theorem Resolved.pattern (k : g.Resolved tensors values r) {p : Option (List Float)}
    (hp : p = none ∨ p = g.pattern? [] n) (hin : m.inputs = n.inputs) :
    p = none ∨ r.pattern? values m = p := by
  rcases hp with rfl | rfl
  · exact .inl rfl
  simp only [pattern?, hin]
  cases n.inputs[1]? with
  | none => exact .inl rfl
  | some a =>
    simp only [Option.bind_some, given?]
    cases ha : g.node? a with
    | none => exact .inl rfl
    | some b =>
      obtain ⟨b', hb', -, -, -, hop⟩ := k.relaid.wiring.node ha
      simp only [Option.bind_some, hb']
      cases hb : b.op with
      | constant d xs =>
        have := k.same ha hb' (by simp [hb])
        simp [this, hb]
      | input | permute | reshape | concatenation | crop | reorder | fullyConnected =>
        exact .inl rfl

theorem Resolved.operation (k : g.Resolved tensors values r) (hn : g.node? id = some n)
    (hm : r.node? id = some m) : Infer.OperationRefines m.op n.op := by
  by_cases hd : ∃ d, n.op = .input d
  · obtain ⟨d, hd⟩ := hd
    obtain ⟨m', realized, lanes, ⟨d', t, hd', -, hb⟩, hm', hop, -⟩ := k.bound hn hd
    obtain rfl := Operation.input.inj (hd.symm.trans hd')
    obtain rfl := Option.some.inj (hm.symm.trans hm')
    simp only [bindInput] at hb
    split at hb
    · cases hb
    obtain ⟨l, hl, hb⟩ := Result.bind_eq_ok.1 hb
    obtain ⟨xs, -, hb⟩ := Result.bind_eq_ok.1 hb
    obtain ⟨rfl, -⟩ := Prod.mk.inj (Except.ok.inj hb)
    exact .inr ⟨l, d, hop, hd, (Layout.realize_eq_ok hl).2⟩
  · exact .inl (k.same hn hm fun d hx => hd ⟨d, hx⟩)

theorem Lays.forall₂ {R : Layout → Layout → Prop} {ids : List NodeId} {ls ls' : List Layout}
    (h₁ : g.Lays ids ls) (h₂ : r.Lays ids ls')
    (hR : ∀ a ∈ ids, ∀ l l', g.layout a = .ok l → r.layout a = .ok l' → R l' l) :
    List.Forall₂ R ls' ls := by
  induction h₁ generalizing ls' with
  | nil => cases h₂; exact .nil
  | cons hx _ ih =>
    obtain _ | ⟨hx', hrest⟩ := h₂
    refine .cons (hR _ List.mem_cons_self _ _ hx hx') (ih hrest fun a ha => ?_)
    exact hR a (List.mem_cons_of_mem _ ha)

/-- What compilation knew about a layout holds at execution. Between the two the graph may have
been fused, as long as nobody touched its wiring. -/
theorem Resolved.refines (k : g.Resolved tensors values r) (hs : h.Sound) (hl : h.Laid)
    (w : h.SameWiring g) (hop : ∀ x n m, h.node? x = some n → g.node? x = some m → m.op = n.op)
    {l l' : Layout} (hid : h.layout id = .ok l) (hid' : r.layout id = .ok l') :
    l'.Refines l := by
  induction id using hs.feeds_induction generalizing l l' with
  | step id ih =>
    obtain ⟨n, hn, -⟩ := layout_eq_ok.1 hid
    have hlive : h.contains id = true := contains_iff.2 ⟨n, hn⟩
    obtain ⟨n₁, ins, l₁, p, hn₁, hins, hl₁, hp, hy, -⟩ := hl id hlive
    obtain rfl := Option.some.inj (hn.symm.trans hn₁)
    obtain rfl := Except.ok.inj (hid.symm.trans hl₁)
    have wr := k.relaid.wiring
    have hlive' : r.contains id = true := by rw [← wr.contains_eq, ← w.contains_eq, hlive]
    obtain ⟨n', ins', l₂, hn', hins', hl₂, hy', -⟩ := k.inferred id hlive'
    obtain rfl := Except.ok.inj (hid'.symm.trans hl₂)
    obtain ⟨m, hm, -, -, hin, -⟩ := w.node hn
    obtain ⟨n₂, hn₂, -, -, hin', -⟩ := wr.node hm
    obtain rfl := Option.some.inj (hn'.symm.trans hn₂)
    refine hy.refines ?_ (k.pattern (m := n') (n := m) ?_ hin') ?_ hy'
    · rw [← hop id n m hn hm]
      exact k.operation hm hn'
    · rw [w.pattern?_eq, pattern?, hin]
      exact hp
    · rw [hin', hin] at hins'
      exact hins.forall₂ hins' fun a ha _ _ h₁ h₂ => ih a ⟨n, hn, ha⟩ h₁ h₂

end Graph
end BufferFusion
