import BufferFusion.Proofs.Inference.Identity

/-!
# Inference afresh

Of an input a rule reads the layout, and this the same run has given it: an order has the producers
first. So of the layouts that a graph brings along nothing is left, whatever padding they had, and
two graphs with the same nodes are inferred alike.
-/
namespace BufferFusion

/-! ### What a rule reads -/

/-- Two nodes in their graphs that are the same to a rule. -/
structure InferenceContext.Alike (c d : InferenceContext) : Prop where
  name : c.node.name = d.node.name
  op : c.node.op = d.node.op
  inputs : c.node.inputs = d.node.inputs
  input : ∀ slot, c.input slot = d.input slot
  pattern : c.inputValues? 1 = d.inputValues? 1

namespace Infer

variable {c d : InferenceContext} {l : Layout}

theorem joinInputs_congr (k : c.Alike d) (axis : Nat) (first : Layout) (slot : Nat)
    (dims : List Dim) (ids : List NodeId) :
    joinInputs c axis first slot dims ids = joinInputs d axis first slot dims ids := by
  induction ids generalizing slot dims with
  | nil => rfl
  | cons id ids ih => simp only [joinInputs, k.input, ih]

theorem rule_congr (k : c.Alike d) (tag : Tag) : rule tag c = rule tag d := by
  cases tag with
  | input | constant => simp only [rule, source, k.op]
  | permute => simp only [rule, permute, k.op, k.input]
  | reshape => simp only [rule, reshape, k.op, k.input, pattern?_eq, k.pattern]
  | concatenation =>
    simp only [rule, concatenation, k.op, k.input, k.inputs, joinInputs_congr k]
  | crop => simp only [rule, crop, k.op, k.input]
  | reorder => simp only [rule, reorder, k.op, k.input]
  | fullyConnected => simp only [rule, fullyConnected, k.input, k.inputs]

theorem unpadded_of_ok {shape : Shape} {element : ElementType} {format : Format}
    (h : Except.ok (.unpadded shape element format) = (.ok l : Result Layout)) :
    l.padding = .zero l.rank := by
  obtain rfl := Except.ok.inj h
  rfl

/-- No rule answers with padding. -/
theorem rule_unpadded {tag : Tag} (h : rule tag c = .ok l) : l.padding = .zero l.rank := by
  cases tag with
  | input | constant =>
    simp only [rule, source] at h
    split at h
    · exact unpadded_of_ok h
    · cases h
  | permute =>
    simp only [rule, permute] at h
    split at h
    · obtain ⟨a, -, h⟩ := Result.bind_eq_ok.1 h
      split at h
      · cases h
      split at h
      · cases h
      · exact unpadded_of_ok h
    · cases h
  | reshape =>
    simp only [rule, reshape] at h
    split at h
    · obtain ⟨a, -, h⟩ := Result.bind_eq_ok.1 h
      obtain ⟨pattern, -, h⟩ := Result.bind_eq_ok.1 h
      cases pattern <;>
      · obtain ⟨shape, -, h⟩ := Result.bind_eq_ok.1 h
        exact unpadded_of_ok h
    · cases h
  | concatenation =>
    simp only [rule, concatenation] at h
    split at h
    · obtain ⟨first, -, h⟩ := Result.bind_eq_ok.1 h
      split at h
      · cases h
      · obtain ⟨dims, -, h⟩ := Result.bind_eq_ok.1 h
        exact unpadded_of_ok h
    · cases h
  | crop =>
    simp only [rule, crop] at h
    split at h
    · obtain ⟨a, -, h⟩ := Result.bind_eq_ok.1 h
      split at h
      · cases h
      obtain ⟨fits, -, h⟩ := Result.bind_eq_ok.1 h
      split at h
      · exact unpadded_of_ok h
      · cases h
    · cases h
  | reorder =>
    simp only [rule, reorder] at h
    split at h
    · obtain ⟨a, -, h⟩ := Result.bind_eq_ok.1 h
      obtain ⟨shape, -, h⟩ := Result.bind_eq_ok.1 h
      exact unpadded_of_ok h
    · cases h
  | fullyConnected =>
    obtain ⟨data, -, h⟩ := Result.bind_eq_ok.1 h
    obtain ⟨weights, -, h⟩ := Result.bind_eq_ok.1 h
    split at h
    · cases h
    · split at h
      · cases h
      generalize (if data.element.isFloat then data.element else .f32) = element at h
      split at h
      · obtain ⟨bias, -, h⟩ := Result.bind_eq_ok.1 h
        obtain ⟨_, -, h⟩ := Result.bind_eq_ok.1 h
        exact unpadded_of_ok h
      · exact unpadded_of_ok h
    · cases h

end Infer

/-- Every rule of the table is one of the rules that there are. -/
def InferenceTable.BuiltIn (t : InferenceTable) : Prop :=
  ∀ tag rule, t tag = some rule → ∃ tag', rule = Infer.rule tag'

namespace InferenceTable

variable {t : InferenceTable} {c d : InferenceContext} {l : Layout}

theorem builtIn_standard : standard.BuiltIn := fun tag _ h => ⟨tag, (Option.some.inj h).symm⟩

theorem BuiltIn.infer_congr (ht : t.BuiltIn) (k : c.Alike d) : t.infer c = t.infer d := by
  have htag : c.node.tag = d.node.tag := congrArg Operation.tag k.op
  have hblame : blame c.node = blame d.node := by
    funext e
    cases e <;> simp only [blame, htag, k.name]
  rw [infer, infer, htag]
  split
  · rfl
  · next rule hrule =>
    obtain ⟨tag, rfl⟩ := ht _ _ hrule
    rw [Infer.rule_congr k, hblame, k.name]

theorem BuiltIn.infer_unpadded (ht : t.BuiltIn) (h : t.infer c = .ok l) :
    l.padding = .zero l.rank := by
  obtain ⟨rule, hrule, hl⟩ := Infer.exists_rule_of_infer h
  obtain ⟨tag, rfl⟩ := ht _ _ hrule
  exact Infer.rule_unpadded hl

end InferenceTable

/-- What a node is, whatever the analyses found out about it. -/
def Node.core (n : Node) : NodeId × String × List NodeId × Operation :=
  (n.id, n.name, n.inputs, n.op)

/-- What a node shows of its layout. -/
def Node.shown (n : Node) : String × Option Layout := (n.name, n.layout)

namespace Graph

variable {b g h g' : Graph} {t : InferenceTable} {values : InputValues} {done ids : List NodeId}
  {id x : NodeId} {n m : Node} {l : Layout}

/-- The graphs have the same nodes, in the same order. They may differ in whatever the analyses have
put there. -/
structure SameNodes (g h : Graph) : Prop where
  core : ∀ x, (g.node? x).map Node.core = (h.node? x).map Node.core
  order : g.order = h.order

/-- The node has the same layout in both graphs, and no padding. -/
def LaidAlike (g h : Graph) (x : NodeId) : Prop :=
  ∃ l, g.layout x = .ok l ∧ h.layout x = .ok l ∧ l.padding = .zero l.rank

/-! ### Two runs -/

theorem core_cases (hcore : (g.node? x).map Node.core = (h.node? x).map Node.core) :
    g.node? x = none ∧ h.node? x = none ∨ ∃ n m, g.node? x = some n ∧ h.node? x = some m ∧
      n.name = m.name ∧ n.inputs = m.inputs ∧ n.op = m.op := by
  cases hn : g.node? x with
  | none =>
    rw [hn] at hcore
    exact .inl ⟨rfl, Option.map_eq_none_iff.1 hcore.symm⟩
  | some n =>
    rw [hn] at hcore
    obtain ⟨m, hm, he⟩ := Option.map_eq_some_iff.1 hcore.symm
    simp only [Node.core, Prod.mk.injEq] at he
    exact .inr ⟨n, m, rfl, hm, he.2.1.symm, he.2.2.1.symm, he.2.2.2.symm⟩

theorem given?_congr (hcore : (g.node? x).map Node.core = (h.node? x).map Node.core) :
    g.given? values x = h.given? values x := by
  rw [given?, given?]
  rcases core_cases hcore with ⟨hn, hm⟩ | ⟨n, m, hn, hm, -, -, hop⟩
  · rw [hn, hm]
  · rw [hn, hm, Option.bind_some, Option.bind_some, hop]

/-- Two runs over the nodes of `b` that have come equally far. -/
structure Abreast (b g h : Graph) (done : List NodeId) : Prop where
  wiring : b.SameWiring g
  core : ∀ x, (g.node? x).map Node.core = (h.node? x).map Node.core
  laid : ∀ x ∈ done, g.LaidAlike h x

namespace Abreast

variable (k : Abreast b g h done)

include k

theorem inferNode_eq (ht : t.BuiltIn) (hready : ∀ a, b.Feeds a id → a ∈ done) :
    t.inferNode g values id = t.inferNode h values id := by
  rw [InferenceTable.inferNode, InferenceTable.inferNode, get, get]
  rcases core_cases (k.core id) with ⟨hn, hm⟩ | ⟨n, m, hn, hm, hname, hin, hop⟩
  · rw [hn, hm]
    rfl
  rw [hn, hm]
  refine ht.infer_congr ⟨hname, hop, hin, fun slot => ?_, ?_⟩
  · cases hs : n.inputs[slot]? with
    | none => simp only [InferenceContext.input, ← hin, hs, hname]
    | some a =>
      obtain ⟨l, hl, hl', -⟩ := k.laid a (hready a (k.wiring.symm.feeds (.of_input hn hs)))
      have hs' : m.inputs[slot]? = some a := hin ▸ hs
      exact (Infer.input_of_slot (c := ⟨g, n, values⟩) hs hl).trans
        (Infer.input_of_slot (c := ⟨h, m, values⟩) hs' hl').symm
  · have hgiven : g.given? values = h.given? values := funext fun a => given?_congr (k.core a)
    rw [inputValues?_eq, inputValues?_eq, pattern?, pattern?, hin, hgiven]

theorem setLayout (hlive : b.contains id = true) (hl : l.padding = .zero l.rank) :
    Abreast b (g.setLayout id l) (h.setLayout id l) (id :: done) := by
  have hg : g.contains id = true := by rwa [← k.wiring.contains_eq]
  have hh : h.contains id = true := by
    have := congrArg Option.isSome (k.core id)
    rw [Option.isSome_map, Option.isSome_map] at this
    exact this.symm.trans hg
  refine ⟨k.wiring.trans (sameWiring_setLayout g id l).symm, fun x => ?_, fun x hx => ?_⟩
  · rw [map_setLayout (fun _ _ => rfl), map_setLayout (fun _ _ => rfl), k.core]
  · by_cases hid : x = id
    · subst hid
      exact ⟨l, layout_setLayout_self hg, layout_setLayout_self hh, hl⟩
    · rw [LaidAlike, layout_setLayout_of_ne hid, layout_setLayout_of_ne hid]
      exact k.laid x ((List.mem_cons.1 hx).resolve_left hid)

/-- Of two runs that have come equally far, both stop at the same node or none does. -/
theorem along (ht : t.BuiltIn) (ho : b.Ordered done ids) :
    (∃ e, (t.inferAlong values ids g).2 = .error e ∧ (t.inferAlong values ids h).2 = .error e) ∨
      ∃ g' h' c c', t.inferAlong values ids g = (g', .ok c) ∧
        t.inferAlong values ids h = (h', .ok c') ∧ Abreast b g' h' (ids.reverse ++ done) := by
  induction ids generalizing g h done with
  | nil => exact .inr ⟨g, h, false, false, rfl, rfl, k⟩
  | cons id ids ih =>
    obtain ⟨-, hlive, hready, hrest⟩ := ho
    have hsame : t.inferNode g values id = t.inferNode h values id := k.inferNode_eq ht hready
    cases hl : t.inferNode g values id with
    | error e =>
      simp only [InferenceTable.inferAlong, ← hsame, hl]
      exact .inl ⟨e, rfl, rfl⟩
    | ok l =>
      obtain ⟨n, -, hinfer⟩ := Result.bind_eq_ok.1 hl
      rw [inferAlong_cons hl, inferAlong_cons (hsame ▸ hl), List.reverse_cons, List.append_assoc,
        List.singleton_append]
      rcases ih (k.setLayout hlive (ht.infer_unpadded hinfer)) hrest with
        ⟨e, he, he'⟩ | ⟨g', h', c, c', hg, hh, k'⟩
      · rw [he, he']
        exact .inl ⟨e, rfl, rfl⟩
      · rw [hg, hh]
        exact .inr ⟨g', h', _, _, rfl, rfl, k'⟩

end Abreast

theorem Sound.inferGraph_alike (hs : g.Sound) (same : g.SameNodes h) (ht : t.BuiltIn)
    (values : InputValues) :
    (∃ e, (t.inferGraph values g).2 = .error e ∧ (t.inferGraph values h).2 = .error e) ∨
      ∃ g' h' c c', t.inferGraph values g = (g', .ok c) ∧ t.inferGraph values h = (h', .ok c') ∧
        Abreast g g' h' g.order.reverse := by
  have k : Abreast g g h [] := ⟨.refl g, same.core, by simp⟩
  rw [InferenceTable.inferGraph, InferenceTable.inferGraph, ← same.order,
    ← List.append_nil g.order.reverse]
  exact k.along ht hs.ordered

/-! ### A run over what a run has left -/

theorem layout_inferAlong_of_not_mem (hx : x ∉ ids) :
    (t.inferAlong values ids g).1.layout x = g.layout x := by
  induction ids generalizing g with
  | nil => rfl
  | cons id ids ih =>
    rw [List.mem_cons, not_or] at hx
    cases hl : t.inferNode g values id with
    | error e => simp only [InferenceTable.inferAlong, hl]
    | ok l => rw [inferAlong_cons hl, ih hx.2, layout_setLayout_of_ne hx.1]

/-- A run that leaves the layouts as they were has changed nothing on the way either: no node is
inferred twice. -/
theorem inferAlong_of_unmoved {r : Graph} {c : Bool} (hnodup : ids.Nodup)
    (hi : t.inferAlong values ids g = (r, .ok c)) (hr : ∀ x ∈ ids, r.layout x = g.layout x) :
    t.inferAlong values ids g = (g, .ok false) := by
  induction ids generalizing c with
  | nil => rfl
  | cons id ids ih =>
    obtain ⟨hid, hnodup⟩ := List.nodup_cons.1 hnodup
    rw [List.forall_mem_cons] at hr
    obtain ⟨l, c', hl, hrest⟩ := inferAlong_cons_eq_ok hi
    obtain ⟨n, hn, -⟩ := Result.bind_eq_ok.1 hl
    have hlive := contains_iff.2 ⟨n, get_eq_ok.1 hn⟩
    have hkept : r.layout id = .ok l := by
      have : (t.inferAlong values ids (g.setLayout id l)).1.layout id =
          (g.setLayout id l).layout id := layout_inferAlong_of_not_mem hid
      rwa [hrest, layout_setLayout_self hlive] at this
    obtain ⟨m, hm, hml⟩ := layout_eq_ok.1 (hr.1.symm.trans hkept)
    have hsame : (g.node? id).bind (·.layout) = some l := by rw [hm, Option.bind_some, hml]
    rw [inferAlong_cons hl]
    rw [setLayout_same hsame] at hrest ⊢
    rw [ih hnodup hrest hr.2, hsame]
    simp [Functor.map, Except.map]

/-- What was inferred is not changed by inferring it again. -/
theorem Sound.infer_again (hs : g.Sound) (ht : t.BuiltIn) {c : Bool}
    (hi : t.inferGraph values g = (g', .ok c)) : t.inferGraph values g' = (g', .ok false) := by
  have hcore := map_inferGraph (f := Node.core) (fun _ _ => rfl) hi
  have hg : (t.inferAlong values g.order g).1 = g' := congrArg Prod.fst hi
  have hw : g.SameWiring g' := hg ▸ (relaid_inferAlong t values g.order g).wiring
  rcases hs.inferGraph_alike ⟨fun x => (hcore x).symm, hw.order_eq⟩ ht values with
    ⟨e, he, -⟩ | ⟨g₁, r, _, _, hrun, hr, k⟩
  · rw [hi] at he
    cases he
  · obtain ⟨rfl, -⟩ := Prod.mk.inj (hi.symm.trans hrun)
    refine inferAlong_of_unmoved (hw.sound hs).order_nodup hr fun x hx => ?_
    obtain ⟨l, hl, hl', -⟩ := k.laid x (List.mem_reverse.2 (hw.order_eq ▸ hx))
    exact hl'.trans hl.symm

/-! ### Executions -/

/-- The list of nodes is read off the nodes of each id. -/
theorem nodes_map_congr {α : Type} {f : Node → α}
    (hf : ∀ x, (g.node? x).map f = (h.node? x).map f) : g.nodes.map f = h.nodes.map f := by
  have hnodes : ∀ (k : Graph) (bound : Nat), k.slots.length ≤ bound →
      k.nodes = (List.range bound).filterMap k.node? := by
    intro k bound hbound
    obtain ⟨rest, rfl⟩ := Nat.exists_eq_add_of_le hbound
    have hslots : (List.range k.slots.length).map k.node? = k.slots := by
      refine List.ext_getElem (by simp) fun i hi _ => ?_
      simp only [List.length_map, List.length_range] at hi
      simp [node?, hi]
    have hpast : ((List.range rest).map (k.slots.length + ·)).filterMap k.node? = [] := by
      simp [node?]
    rw [List.range_add, List.filterMap_append, hpast, List.append_nil, nodes]
    conv_lhs => rw [← hslots]
    rw [List.filterMap_map]
    rfl
  rw [hnodes g _ (le_max_left g.slots.length h.slots.length),
    hnodes h _ (le_max_right g.slots.length h.slots.length), List.map_filterMap, List.map_filterMap,
    funext hf]

theorem checkResolved_congr
    (hshown : ∀ x, (g.node? x).map Node.shown = (h.node? x).map Node.shown) :
    g.checkResolved = h.checkResolved := by
  have hcheck : ∀ k : Graph, k.checkResolved =
      match (k.nodes.map Node.shown).find? fun v => !v.2.any (·.isStatic) with
      | some v => .error (.stillUnknown v.1)
      | none => .ok () := by
    intro k
    have hfind : ((fun v : String × Option Layout => !v.2.any (·.isStatic)) ∘ Node.shown) =
        fun n : Node => !n.layout.any (·.isStatic) := rfl
    rw [checkResolved, List.find?_map, hfind]
    cases k.nodes.find? fun n => !n.layout.any (·.isStatic) <;> rfl
  rw [hcheck, hcheck, nodes_map_congr hshown]

/-- Where the runs are through, the same node is the first to lack a known shape. -/
theorem Abreast.checkResolved_eq (k : Abreast b g h done)
    (hall : ∀ x, b.contains x = true → x ∈ done) : g.checkResolved = h.checkResolved := by
  refine checkResolved_congr fun x => ?_
  rcases core_cases (k.core x) with ⟨hn, hm⟩ | ⟨n, m, hn, hm, hname, -, -⟩
  · rw [hn, hm]
  · have hlive : b.contains x = true := by
      rw [k.wiring.contains_eq]
      exact contains_iff.2 ⟨n, hn⟩
    obtain ⟨l, hl, hl', -⟩ := k.laid x (hall x hlive)
    obtain ⟨_, hn', hnl⟩ := layout_eq_ok.1 hl
    obtain ⟨_, hm', hml⟩ := layout_eq_ok.1 hl'
    obtain rfl := Option.some.inj (hn.symm.trans hn')
    obtain rfl := Option.some.inj (hm.symm.trans hm')
    simp only [hn, hm, Option.map_some, Node.shown, hname, hnl, hml]

theorem map_setOp (g : Graph) (id x : NodeId) (op : Operation) :
    ((g.setOp id op).node? x).map Node.core =
      if id = x then ((g.node? x).map Node.core).map fun c => (c.1, c.2.1, c.2.2.1, op)
      else (g.node? x).map Node.core := by
  rw [node?_setOp]
  split <;> simp [Function.comp_def, Node.core]

/-- Tensors are bound to nodes, whatever the analyses found out about these. -/
theorem bindInputs_alike {tensors : List (NodeId × Tensor)} {ns ms : List Node}
    (hns : ns.map Node.core = ms.map Node.core)
    (hcore : ∀ x, (g.node? x).map Node.core = (h.node? x).map Node.core) :
    (g.bindInputs tensors ns).2 = (h.bindInputs tensors ms).2 ∧
      ∀ x, ((g.bindInputs tensors ns).1.node? x).map Node.core =
        ((h.bindInputs tensors ms).1.node? x).map Node.core := by
  induction ns generalizing ms g h with
  | nil =>
    obtain rfl := List.map_eq_nil_iff.1 hns.symm
    exact ⟨rfl, hcore⟩
  | cons n ns ih =>
    obtain ⟨m, ms, rfl, he, hns⟩ := List.map_eq_cons_iff.1 hns.symm
    have hid : m.id = n.id := congrArg (·.1) he
    have hname : m.name = n.name := congrArg (·.2.1) he
    have hop : m.op = n.op := congrArg (·.2.2.2) he
    have hbind : ∀ d t, bindInput m d t = bindInput n d t := fun d t => by
      rw [bindInput, bindInput, hname]
    simp only [bindInputs, hid, hname, hop, hbind]
    split
    · exact ih hns.symm hcore
    · exact ⟨rfl, hcore⟩
    · split
      · exact ⟨rfl, hcore⟩
      · next realized lanes _ =>
        obtain ⟨hvalues, hrest⟩ := @ih (g.setOp n.id (.input realized))
          (h.setOp n.id (.input realized)) ms hns.symm fun x => by rw [map_setOp, map_setOp, hcore]
        exact ⟨by rw [hvalues], hrest⟩

theorem Sound.resolve_alike (hs : g.Sound) (hs' : h.Sound) (same : g.SameNodes h)
    (tensors : List (NodeId × Tensor)) :
    (∃ e, (g.resolve tensors).2 = .error e ∧ (h.resolve tensors).2 = .error e) ∨
      ∃ g' h' values, g.resolve tensors = (g', .ok values) ∧ h.resolve tensors = (h', .ok values) ∧
        ∀ x, g.contains x = true → g'.LaidAlike h' x := by
  have hinputs : g.inputNodes.map Node.core = h.inputNodes.map Node.core := by
    have hfilter : ∀ k : Graph, k.inputNodes.map Node.core =
        (k.nodes.map Node.core).filter (·.2.2.2.tag == .input) := fun k => by
      rw [inputNodes, List.filter_map]
      rfl
    rw [hfilter, hfilter, nodes_map_congr same.core]
  obtain ⟨hvalues, hcore⟩ := @bindInputs_alike g h tensors _ _ hinputs same.core
  have hw := (relaid_bindInputs tensors fun n hn => hs.isInput hn).wiring
  have hw' := (relaid_bindInputs tensors fun n hn => hs'.isInput hn).wiring
  simp only [resolve]
  cases hb : g.bindInputs tensors g.inputNodes with
  | mk b r =>
  cases hb' : h.bindInputs tensors h.inputNodes with
  | mk b' r' =>
  rw [hb] at hw
  rw [hb'] at hw'
  rw [hb, hb'] at hvalues hcore
  obtain rfl : r = r' := hvalues
  cases r with
  | error e => exact .inl ⟨e, rfl, rfl⟩
  | ok values =>
    have hsame : b.SameNodes b' :=
      ⟨hcore, hw.order_eq.symm.trans (same.order.trans hw'.order_eq)⟩
    have hsb := hw.sound hs
    rcases hsb.inferGraph_alike hsame InferenceTable.builtIn_standard values with
      ⟨e, he, he'⟩ | ⟨g', h', _, _, hg, hh, k⟩
    · simp only [he, he']
      exact .inl ⟨e, rfl, rfl⟩
    · have hall : ∀ x, b.contains x = true → x ∈ b.order.reverse := fun x hx =>
        List.mem_reverse.2 (hsb.mem_order.2 hx)
      simp only [hg, hh, k.checkResolved_eq hall]
      cases h'.checkResolved with
      | error e => exact .inl ⟨e, rfl, rfl⟩
      | ok u =>
        refine .inr ⟨g', h', values, rfl, rfl, fun x hx => k.laid x (hall x ?_)⟩
        rwa [← hw.contains_eq]

/-- On graphs with the same nodes inference fails alike, or it gives every node the same layout,
without padding, and finds nothing more to do there. The same goes for an execution that resolves
the graphs on tensors. -/
theorem Sound.infers_afresh (hs : g.Sound) (hs' : h.Sound) (same : g.SameNodes h)
    (ht : t.BuiltIn) :
    (∀ values, (∃ e, (t.inferGraph values g).2 = .error e ∧ (t.inferGraph values h).2 = .error e) ∨
      ∃ g' h' c c', t.inferGraph values g = (g', .ok c) ∧ t.inferGraph values h = (h', .ok c') ∧
        (∀ x, g.contains x = true → g'.LaidAlike h' x) ∧
          t.inferGraph values g' = (g', .ok false) ∧ t.inferGraph values h' = (h', .ok false)) ∧
    ∀ tensors, (∃ e, (g.resolve tensors).2 = .error e ∧ (h.resolve tensors).2 = .error e) ∨
      ∃ g' h' values, g.resolve tensors = (g', .ok values) ∧ h.resolve tensors = (h', .ok values) ∧
        ∀ x, g.contains x = true → g'.LaidAlike h' x := by
  refine ⟨fun values => ?_, hs.resolve_alike hs' same⟩
  rcases hs.inferGraph_alike same ht values with herr | ⟨g', h', c, c', hg, hh, k⟩
  · exact .inl herr
  · refine .inr ⟨g', h', c, c', hg, hh, fun x hx => k.laid x ?_, hs.infer_again ht hg,
      hs'.infer_again ht hh⟩
    exact List.mem_reverse.2 (hs.mem_order.2 hx)

/-- A matrix with an open dim, a permute of it and a row of its elements. -/
def turnedSample : Graph :=
  ((empty.place "matrix" (.input (.plain ⟨[.unknown, .known 2]⟩ .f32)) []).place "turned"
    (.permute [1, 0]) [0]).place "row" (.reshape (.pattern [1, -1]) false) [1]

/-- The sample with what somebody left behind: the layouts of another matrix, one of them padded, a
decision and a shared buffer. -/
def usedSample : Graph :=
  (((turnedSample.setLayout 0 (.plain (.ofSizes [5, 2]) .f32)).setLayout 1
    ⟨.ofSizes [2, 5], .f32, .bfyx, ⟨[.fixed 3 0, .zero]⟩⟩).setState 1 (.optimized 2 6)).setSharing
      ⟨[⟨1, 2, .view 0⟩]⟩

theorem built_turnedSample : turnedSample.Built :=
  Built.empty.place rfl |>.place rfl |>.place rfl

theorem sound_usedSample : usedSample.Sound :=
  (((built_turnedSample.reachable.setLayout _ _).setLayout _ _).setState _ _ |>.setSharing _).sound

theorem sameNodes_usedSample : turnedSample.SameNodes usedSample where
  core := fun x => by
    match x with
    | 0 | 1 | 2 => rfl
    | _ + 3 => rfl
  order := rfl

/-- Both are inferred alike, and resolved alike on a matrix of three rows. -/
theorem infers_afresh_turnedSample :
    (∃ g' h' c c', InferenceTable.standard.inferGraph [] turnedSample = (g', .ok c) ∧
      InferenceTable.standard.inferGraph [] usedSample = (h', .ok c') ∧ g'.LaidAlike h' 1 ∧
        InferenceTable.standard.inferGraph [] h' = (h', .ok false)) ∧
    ∃ g' h' values, turnedSample.resolve [(0, ⟨[3, 2], .f32, List.replicate 24 0⟩)] =
      (g', .ok values) ∧ usedSample.resolve [(0, ⟨[3, 2], .f32, List.replicate 24 0⟩)] =
        (h', .ok values) ∧ g'.LaidAlike h' 2 := by
  have h := built_turnedSample.sound.infers_afresh sound_usedSample sameNodes_usedSample
    InferenceTable.builtIn_standard
  constructor
  · rcases h.1 [] with ⟨e, he, -⟩ | ⟨g', h', c, c', hg, hh, hlaid, -, hagain⟩
    · cases he
    · exact ⟨g', h', c, c', hg, hh, hlaid 1 rfl, hagain⟩
  · rcases h.2 [(0, ⟨[3, 2], .f32, List.replicate 24 0⟩)] with
      ⟨e, he, -⟩ | ⟨g', h', values, hg, hh, hlaid⟩
    · cases he
    · exact ⟨g', h', values, hg, hh, hlaid 2 rfl⟩

end Graph

end BufferFusion
