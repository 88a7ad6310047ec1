import Flowgraph.Proofs.Ways

/-!
# Exits and terminal nodes

The exits of a graph are where it says that control leaves the function.  The edges say so as well:
control leaves for good where no way leads on, and for a while where the function is suspended and
one way leads on.  The two agree, and the statement at an exit is the last one of its node.  Copies
of a statement end at nodes of their own and share one exit.

## Main results

* `Plan.DrawnWhole.departure?_of_mem_leaves` : an exit at a node is made by its last statement.
* `Graph.exits_match_terminal_nodes` : the exits are those of the nodes from which no way leads on,
  and of the nodes that suspend the function.
-/

namespace Flowgraph

/-! ## Exits at a node -/

section Roles

variable {d : Piece} {flat : Bool} {u : Nat}

/-- Only where control goes straight are there exits. -/
theorem Piece.Role.goesStraight_of_mem_leaves {made : Plan → Prop} (h : d.Role flat made u)
    {content : Content} (hc : d.HasContent u content) {c : ExitCause}
    (hx : c ∈ (d.row u).leaves) : d.GoesStraight u content := by
  cases h with
  | straight node hn hs =>
    obtain rfl : content = node.content := hc.unique ⟨node, hn, rfl⟩
    exact hs
  | test env header v w thrown hs =>
    rw [hs.row] at hx
    cases hx
  | dispatch env base next handlers subject region cases hp hf hd hu =>
    -- neither the subject of a `match` nor an alternative leaves the function
    have hleaves : (d.row u).leaves = [] := by
      rcases hu with rfl | hu
      · rw [hd.1.row]
      · obtain ⟨us, hus, hu⟩ := List.mem_flatten.1 hu
        obtain ⟨k, hk⟩ := List.getElem?_of_mem hus
        obtain ⟨v, -, hrow⟩ := cases.row_alternative (base + 2) 0 true hd.2.2 k us hk u hu
        rw [hrow]
    rw [hleaves] at hx
    cases hx

/-- A node that is no test goes straight. -/
theorem Piece.Role.goesStraight {body : List Stmt} (h : d.Role flat (MadeIn body) u)
    {content : Content} (hc : d.HasContent u content) (hs : content.isStraight = true) :
    d.GoesStraight u content := by
  cases h with
  | straight node hn hg =>
    obtain rfl : content = node.content := hc.unique ⟨node, hn, rfl⟩
    exact hg
  | test env header v w thrown hshows =>
    rw [hc.unique hshows.hasContent] at hs
    cases hs
  | dispatch env base next handlers subject region cases' hp hf hd hu =>
    obtain ⟨site, cases, cx, -, hplan⟩ := hp.exists_dispatch
    have hm := Piece.DrawsMatch.of_drawn hplan hd
    rcases hu with rfl | hu
    · rw [hc.unique hm.subject] at hs
      cases hs
    · obtain ⟨pattern, hpattern⟩ := hm.exists_pattern hu
      rw [hc.unique hpattern] at hs
      cases hs

end Roles

section Bodies

variable {options : Options} {regions : RegionTree} {body : List Stmt} {plan : Plan} {d : Piece}
  {flat : Bool} {u : Nat} {content : Content}

/-- An exit at a node is made by its last statement, or because the body is over. -/
theorem Plan.DrawnWhole.departure?_of_mem_leaves (hw : plan.DrawnWhole d flat)
    (hp : Plan.ofBody options regions body = .ok plan) (hc : d.HasContent u content) {c : ExitCause}
    (hx : c ∈ (d.row u).leaves) : content.departure? = some c := by
  rcases hw.node_cases hc with ⟨rfl, -⟩ | hu | ⟨rfl, rfl⟩
  · rw [hw.entry.row] at hx
    cases hx
  · exact ((hw.role hp hu).goesStraight_of_mem_leaves hc hx).leaves c hx
  · rw [hw.exit.row] at hx
    rw [List.mem_singleton.1 hx]
    rfl

/-- At a node that suspends the function there is an exit. -/
theorem Plan.DrawnWhole.suspends_mem_leaves (hw : plan.DrawnWhole d flat)
    (hp : Plan.ofBody options regions body = .ok plan) {site : Site}
    (hc : d.HasContent u (.yield site)) : .suspends site ∈ (d.row u).leaves := by
  rcases hw.node_cases hc with ⟨-, he⟩ | hu | ⟨-, he⟩
  · cases he
  · exact ((hw.role hp hu).goesStraight hc rfl).suspends site rfl
  · cases he

/-- Where the function is suspended one way leads on. -/
theorem Plan.DrawnWhole.exists_out_eq (hw : plan.DrawnWhole d flat)
    (hp : Plan.ofBody options regions body = .ok plan) (hc : d.HasContent u content) {c : ExitCause}
    (hx : c ∈ (d.row u).leaves) (hf : c.isFinal = false) : ∃ t, (d.row u).out = [t] := by
  have hd := hw.departure?_of_mem_leaves hp hc hx
  rcases hw.node_cases hc with ⟨rfl, -⟩ | hu | ⟨rfl, rfl⟩
  · rw [hw.entry.row] at hx
    cases hx
  · rcases ((hw.role hp hu).goesStraight_of_mem_leaves hc hx).out with ho | ⟨label, v, ho, -⟩
    · -- control would leave for good, by the same last statement
      have hlt : u < d.nodes.length := hw.length_nodes ▸ by omega
      obtain ⟨c', hx', hf'⟩ := (hw.wired (fits_ofBody hp) hlt).ends.1 ho
      have hd' := hw.departure?_of_mem_leaves hp hc hx'
      rw [hd] at hd'
      cases hd'
      rw [hf] at hf'
      cases hf'
    · exact ⟨(label, v), ho⟩
  · cases hd
    cases hf

end Bodies

/-! ## Graphs of bodies -/

namespace Graph

/-- **The exits match the terminal nodes.**  Every exit is at a node that control can reach and is
made by the last statement of the node.  No way leads on from it if control leaves for good, and one
does if the function is suspended.  Each statement makes one exit of its kind.  Conversely, where no
way leads on and where the function is suspended, there is an exit. -/
theorem exits_match_terminal_nodes {options : Options} {body : List Stmt} {g : Graph}
    (h : ofBody options body = .ok g) :
    (∀ x ∈ g.exits, g.isLive x.node = true ∧
      (∃ node, g.nodes[x.node]? = some node ∧ node.content.departure? = some x.cause) ∧
      (x.cause.isFinal = true → g.ways x.node = []) ∧
      (x.cause.isFinal = false → ∃ t, g.ways x.node = [t])) ∧
    (g.exits.Pairwise fun x y => x.cause.sameExit y.cause = false) ∧
    (∀ u node, g.nodes[u]? = some node → g.isLive u = true → g.ways u = [] →
      ∃ c, node.content.departure? = some c ∧ c.isFinal = true ∧
        ∃ x ∈ g.exits, x.cause.sameExit c = true) ∧
    ∀ u node site, g.nodes[u]? = some node → g.isLive u = true → node.content = .yield site →
      ∃ x ∈ g.exits, x.cause.sameExit (.suspends site) = true := by
  obtain ⟨plan, hp, hg, -⟩ := ofPiece_ofBody h
  have hw := Piece.drawnWhole_ofPlan options.flatDispatch plan
  have hfits := Plan.fits_ofBody hp
  -- exceptions lead elsewhere than the ways on, so none of these is hidden by a parallel edge
  have hways := fun u => hg.ways_eq (hw.apart hfits u)
  refine ⟨fun x hx => ?_, hg.pairwise_exits, fun u node hn hlive hnil => ?_,
    fun u node site hn hlive hy => ?_⟩
  -- an exit is where the piece leaves the function at a node that control can reach
  · obtain ⟨hleaves, hreach⟩ := hg.mem_exits hx
    have hlt := hw.lt_length_of_reaches hfits hreach
    have hwired := hw.wired hfits hlt
    obtain ⟨dead, hn⟩ := hg.exists_dead (List.getElem?_eq_getElem hlt)
    have hc := hg.hasContent hn
    refine ⟨hg.isLive_iff.2 ⟨hlt, hreach⟩, ⟨_, hn, hw.departure?_of_mem_leaves hp hc hleaves⟩,
      fun hf => ?_, fun hf => ?_⟩
    · rw [hways, hwired.ends.2 ⟨x.cause, hleaves, hf⟩]
      rfl
    · obtain ⟨t, ho⟩ := hw.exists_out_eq hp hc hleaves hf
      rw [hways, ho]
      exact ⟨t, rfl⟩
  · obtain ⟨hlt, hreach⟩ := hg.isLive_iff.1 hlive
    rw [hways, keepFirst_eq_nil_iff _ (by simp [sameTarget])] at hnil
    obtain ⟨c, hleaves, hf⟩ := (hw.wired hfits hlt).ends.1 hnil
    exact ⟨c, hw.departure?_of_mem_leaves hp (hg.hasContent hn) hleaves, hf,
      hg.exists_mem_exits hreach hleaves⟩
  · obtain ⟨hlt, hreach⟩ := hg.isLive_iff.1 hlive
    have hc := hg.hasContent hn
    rw [hy] at hc
    exact hg.exists_mem_exits hreach (hw.suspends_mem_leaves hp hc)

/-- A generator that leaves a loop by a `return` inside a `try`.  Its `finally` clause may raise, so
the function may end there in the middle of the `return`. -/
def lateItems : List Stmt :=
  [.loop ⟨0, ⟨0, 70⟩⟩ (.items false ⟨4, 5⟩ ⟨9, 12⟩)
    [.attempt ⟨1, ⟨15, 65⟩⟩
      [.yield ⟨2, ⟨20, 27⟩⟩,
        .branch ⟨3, ⟨28, 40⟩⟩ ⟨31, 32⟩ [.jump ⟨4, ⟨34, 40⟩⟩ .returning] []]
      [] []
      [.branch ⟨5, ⟨50, 62⟩⟩ ⟨53, 54⟩ [.jump ⟨6, ⟨56, 61⟩⟩ .raising] []]]
    []]

/-- The `raise` stands at the nodes `10` and `14`, and its one exit is at the first of them. -/
theorem lateItems_exits : ∃ g, ofBody {} lateItems = .ok g ∧ g.ways 14 = [] ∧
    (∃ x ∈ g.exits, x.cause.sameExit (.raises ⟨6, ⟨56, 61⟩⟩) = true) ∧
    (∃ x ∈ g.exits, x.cause.sameExit (.suspends ⟨2, ⟨20, 27⟩⟩) = true) ∧
    g.isLive 10 = true ∧ g.ways 10 = [] ∧ ∃ t, g.ways 4 = [t] := by
  obtain ⟨g, h, ⟨suspended, hs, hsl, hsc⟩, ⟨raised, hr, hrl, hrw, hrc⟩, hx, hy⟩ :
      ∃ g, ofBody {} lateItems = .ok g ∧
        (∃ n, g.nodes[4]? = some n ∧ g.isLive 4 = true ∧ n.content = .yield ⟨2, ⟨20, 27⟩⟩) ∧
        (∃ n, g.nodes[14]? = some n ∧ g.isLive 14 = true ∧ g.ways 14 = [] ∧
          n.content = .raise ⟨6, ⟨56, 61⟩⟩) ∧
        ⟨10, .raises ⟨6, ⟨56, 61⟩⟩⟩ ∈ g.exits ∧ ⟨4, .suspends ⟨2, ⟨20, 27⟩⟩⟩ ∈ g.exits := by
    refine ⟨_, rfl, ⟨_, rfl, rfl, rfl⟩, ⟨_, rfl, rfl, rfl, rfl⟩, ?_, ?_⟩
    · exact List.mem_of_getElem? (i := 1) rfl
    · exact List.mem_of_getElem? (i := 0) rfl
  obtain ⟨hexits, -, hterminal, hyield⟩ := exits_match_terminal_nodes h
  obtain ⟨c, hc, -, hraise⟩ := hterminal 14 raised hr hrl hrw
  rw [hrc] at hc
  cases hc
  exact ⟨g, h, hrw, hraise, hyield 4 suspended _ hs hsl hsc, (hexits _ hx).1,
    (hexits _ hx).2.2.1 rfl, (hexits _ hy).2.2.2 rfl⟩

end Graph

end Flowgraph
