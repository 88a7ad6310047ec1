import Flowgraph.Mermaid.Picture
import Flowgraph.Proofs.Bodies
import Flowgraph.Proofs.Merging
import Flowgraph.Proofs.Numbering
import Flowgraph.Proofs.SourceText
import Flowgraph.Proofs.Totality

/-!
# From a syntax tree to a picture

A picture can be drawn if the spans that it shows lie in the source text and no edge leads out of
it.  Both hold of the pictures of a function that is read off a syntax tree over the text.  The
nodes of its graph show statements and headers of the function, whose spans lie in the text.  In the
graph itself, control reaches what an edge leads to if it reaches where the edge begins; in the
merged graph, edges lead to blocks.

## Main definitions

* `Content.spans` : the spans that are shown for a node.
* `Picture.Drawable` : the picture can be drawn.

## Main results

* `Picture.Drawable.exists_draw` : such a picture is drawn.
* `Graph.inText_of_spanned` : the nodes of a graph show spans of its body.
* `Graph.drawable_picture`, `Graph.drawable_mergedPicture` : the pictures of a graph can be drawn.
* `Definition.read_built_and_drawn` : from a syntax tree to a picture without a fault.
-/

namespace Flowgraph

theorem exists_mapM_eq_ok {α β ε : Type} {f : α → Except ε β} {l : List α}
    (h : ∀ a ∈ l, ∃ b, f a = .ok b) : ∃ bs, l.mapM f = .ok bs := by
  induction l with
  | nil => exact ⟨[], rfl⟩
  | cons a l ih =>
    obtain ⟨⟨b, hb⟩, hl⟩ := List.forall_mem_cons.1 h
    obtain ⟨bs, hbs⟩ := ih hl
    refine ⟨b :: bs, ?_⟩
    rw [List.mapM_cons, hb, hbs]
    rfl

/-- The spans that are shown for a node. -/
def Content.spans : Content → List Span
  | .test header | .caseTest header | .release header => [header]
  | content => content.stmts.map Stmt.shownSpan

namespace Picture

variable {source : String}

theorem exists_slice {span : Span} (h : span.InText source) :
    ∃ text, slice source span = .ok text := by
  obtain ⟨text, ht⟩ := h.exists_slice?
  exact ⟨text, by rw [slice, ht]⟩

theorem exists_contentText {content : Content} (h : ∀ span ∈ content.spans, span.InText source) :
    ∃ text, contentText source content = .ok text := by
  -- a node without a text of its own shows the texts of its statements
  have hstmts : (∀ s ∈ content.stmts, s.shownSpan.InText source) →
      ∃ texts, (content.stmts.mapM fun s => slice source s.shownSpan) = .ok texts :=
    fun h => exists_mapM_eq_ok fun s hs => exists_slice (h s hs)
  cases content with
  | entry | exit | join | empty => exact ⟨_, rfl⟩
  | test header | caseTest header => exact exists_slice (h header List.mem_cons_self)
  | release header =>
    obtain ⟨text, ht⟩ := exists_slice (h header List.mem_cons_self)
    exact ⟨_, by rw [contentText, ht]; rfl⟩
  | block | yield | raise =>
    obtain ⟨texts, ht⟩ := hstmts (List.forall_mem_map.1 h)
    exact ⟨onLines texts, by simp only [contentText, ht]; rfl⟩

theorem exists_blockText {members : List Node}
    (h : ∀ n ∈ members, ∀ span ∈ n.content.spans, span.InText source) :
    ∃ text, blockText source members = .ok text := by
  rw [blockText]
  split
  -- the members that are shown, or the last one if none is
  · next first rest hf =>
    have hm : ∀ n ∈ first :: rest, n ∈ members := by
      rw [← hf]
      exact fun n hn => (List.mem_filter.1 hn).1
    obtain ⟨texts, ht⟩ := exists_mapM_eq_ok fun n hn => exists_contentText (h n (hm n hn))
    exact ⟨_, by rw [ht]; rfl⟩
  · split
    · next last hl =>
      obtain ⟨text, ht⟩ := exists_contentText (h last (List.mem_of_getLast? hl))
      exact ⟨_, by rw [ht]; rfl⟩
    · exact ⟨_, rfl⟩

/-- The picture can be drawn: its blocks have texts, and its edges lead to blocks. -/
structure Drawable (source : String) (p : Picture) : Prop where
  texts : ∀ b ∈ p.blocks, ∃ text, blockText source b.members = .ok text
  drawn : ∀ b ∈ p.blocks, ∀ e ∈ b.out, ∃ block ∈ p.blocks, block.index = e.2

namespace Drawable

variable {p : Picture}

theorem exists_nodeLines (h : p.Drawable source) (depth : Nat) (r : RegionId) :
    ∃ lines, p.nodeLines source depth r = .ok lines := by
  apply exists_mapM_eq_ok
  rintro ⟨b, number⟩ hb
  have hm : b ∈ p.blocks := List.fst_mem_of_mem_zipIdx (List.mem_filter.1 hb).1
  obtain ⟨text, ht⟩ := h.texts b hm
  exact ⟨.node depth number text, by simp only [ht]; rfl⟩

/-- The regions inside a region are drawn one level deeper. -/
theorem exists_regionLines (h : p.Drawable source) (bound depth : Nat) (r : RegionId) :
    ∃ lines, p.regionLines source bound depth r = .ok lines := by
  induction bound generalizing depth r with
  | zero => exact ⟨[], rfl⟩
  | succ bound ih =>
    obtain ⟨nodes, hn⟩ := h.exists_nodeLines depth r
    -- each region inside is drawn with one step less
    have hinner : ∀ c ∈ p.regions.regions.filter fun c => c.parent == some r && p.isOccupied c.id,
        ∃ lines, (do
          let lines ← p.regionLines source bound (depth + 1) c.id
          return .opening depth c.id c.kind :: lines ++ [.closing depth] : Except Fault _) =
            .ok lines := by
      intro c _
      obtain ⟨lines, hl⟩ := ih (depth + 1) c.id
      exact ⟨_, by rw [hl]; rfl⟩
    obtain ⟨inner, hi⟩ := exists_mapM_eq_ok hinner
    exact ⟨_, by rw [regionLines, hn, hi]; rfl⟩

theorem exists_edgeLines (h : p.Drawable source) {b : Block} (hb : b ∈ p.blocks) (number : Nat) :
    ∃ lines, p.edgeLines number b = .ok lines := by
  apply exists_mapM_eq_ok
  rintro ⟨label, target⟩ he
  obtain ⟨block, hm, hi⟩ := h.drawn b hb _ he
  have hsome : (p.number? target).isSome := by
    rw [number?, List.findIdx?_isSome]
    exact List.any_eq_true.2 ⟨block, hm, by simpa using hi⟩
  obtain ⟨k, hk⟩ := Option.isSome_iff_exists.1 hsome
  exact ⟨.edge number label k, by simp only [hk]⟩

/-- A picture that can be drawn has lines. -/
theorem exists_lines (h : p.Drawable source) : ∃ ls, p.lines source = .ok ls := by
  obtain ⟨regions, hr⟩ := h.exists_regionLines p.regions.size 1 RegionTree.root
  have hedges : ∀ x ∈ p.blocks.zipIdx, ∃ lines, p.edgeLines x.2 x.1 = .ok lines := by
    intro x hx
    exact h.exists_edgeLines (List.fst_mem_of_mem_zipIdx hx) x.2
  obtain ⟨edges, he⟩ := exists_mapM_eq_ok hedges
  exact ⟨_, by rw [lines, hr, he]; rfl⟩

/-- A picture that can be drawn is drawn. -/
theorem exists_draw (h : p.Drawable source) : ∃ text, p.draw source = .ok text := by
  obtain ⟨ls, hl⟩ := h.exists_lines
  exact ⟨_, by rw [draw, hl]; rfl⟩

end Drawable

end Picture

/-! ## The spans of a graph -/

/-- What shows spans of the text, wherever it stands. -/
def Lodging.ofText (source : String) : Lodging where
  stmt _ s := s.shownSpan.InText source
  passing _ s := s.shownSpan.InText source
  released _ header := header.InText source
  tested header := header.InText source

theorem Stmt.shownSpan_mem_spans (s : Stmt) : s.shownSpan ∈ s.spans := by
  cases s with
  | loop site head body orelse => cases head <;> exact List.mem_cons_self
  | hold => exact List.mem_cons_of_mem _ List.mem_cons_self
  | _ => exact List.mem_cons_self

theorem Stmt.tests_subset_spans (s : Stmt) : s.tests ⊆ s.spans := by
  intro header hh
  cases s with
  | simple | pass | marker | yield | jump | unsupported | attempt | hold => simp [tests] at hh
  | branch site test body clauses =>
    rw [tests, List.mem_cons, List.mem_filterMap] at hh
    rcases hh with rfl | ⟨clause, hc, hh⟩
    · simp [spans]
    · have hm : header ∈ clause.head.toList := by simp [hh]
      simpa [spans] using .inr (.inr ⟨clause, hc, .inr hh⟩)
  | loop site head body orelse =>
    rw [tests, List.mem_singleton] at hh
    subst hh
    cases head <;> simp [spans, LoopHead.span]
  | dispatch site subject cases =>
    rw [tests, List.mem_cons, List.mem_flatMap] at hh
    rcases hh with rfl | ⟨case, hc, hh⟩
    · simp [spans]
    · refine List.mem_cons_of_mem _ (List.mem_cons_of_mem _ (List.mem_flatMap.2 ⟨case, hc, ?_⟩))
      exact List.mem_append_left _ (List.mem_cons_of_mem _ hh)

theorem Lodging.houses_ofText {source : String} {body : List Stmt} (t : RegionTree)
    (h : BodySpanned (Span.InText source) body) :
    (Lodging.ofText source).Houses t (bodyPlaces none body) := by
  have hspans : ∀ s p, (s, p) ∈ bodyPlaces none body → s.Spanned (Span.InText source) :=
    fun s p hs => h s (mem_bodyStatements_of_mem_bodyPlaces hs)
  exact {
    stmt := fun s p _ hs _ => hspans s p hs _ s.shownSpan_mem_spans
    passing := fun _ _ p _ _ hs _ _ => hspans _ p hs _ (Stmt.shownSpan_mem_spans _)
    released := fun _ _ _ _ p _ hs _ => hspans _ p hs _ (Stmt.shownSpan_mem_spans _)
    tested := fun s p hs _ hh => hspans s p hs _ (s.tests_subset_spans hh) }

theorem Node.Lodged.inText {source : String} {n : Node} (h : n.Lodged (.ofText source)) :
    ∀ span ∈ n.content.spans, span.InText source := by
  have hstmts : ∀ s ∈ n.content.stmts, s.shownSpan.InText source := by
    -- the node holds statements in their place, or a jump that passes through
    rcases h.stmts with hall | ⟨-, site, means, hj, hp⟩
    · exact hall
    · intro s hs
      rw [show n.content.stmts = [.jump site means] from hj, List.mem_singleton] at hs
      exact hs ▸ hp
  cases hc : n.content with
  | test header => exact List.forall_mem_singleton.2 (h.tested header (.inl hc))
  | caseTest header => exact List.forall_mem_singleton.2 (h.tested header (.inr hc))
  | release header => exact List.forall_mem_singleton.2 (h.released header hc)
  | _ =>
    rw [hc] at hstmts
    exact List.forall_mem_map.2 hstmts

namespace Graph

variable {options : Options} {body : List Stmt} {g : Graph} {source : String}

/-- The nodes of a graph show spans of its body. -/
theorem inText_of_spanned (h : ofBody options body = .ok g)
    (hid : ((bodyStatements body).map Stmt.id).Nodup)
    (hs : BodySpanned (Span.InText source) body) :
    ∀ n ∈ g.nodes, ∀ span ∈ n.content.spans, span.InText source :=
  fun n hn => (lodged_ofBody h hid (Lodging.houses_ofText _ hs) n hn).inText

theorem mem_nodes_of_mem_members {block : List NodeId} {n : Node} (h : n ∈ g.members block) :
    n ∈ g.nodes := by
  obtain ⟨u, -, hu⟩ := List.mem_filterMap.1 h
  exact List.mem_of_getElem? hu

/-- In the picture of a graph, edges lead to nodes that control reaches. -/
theorem drawn_picture (hr : g.Rooted) : ∀ b ∈ g.picture.blocks, ∀ e ∈ b.out,
    ∃ block ∈ g.picture.blocks, block.index = e.2 := by
  intro b hb e he
  obtain ⟨u, hu, rfl⟩ := List.mem_map.1 hb
  obtain ⟨edge, hm, rfl⟩ := List.mem_map.1 he
  obtain ⟨hm, hs⟩ := List.mem_filter.1 hm
  have hl : Edge.Links g.edges u edge.target := ⟨edge, hm, by simpa using hs, rfl⟩
  have hlive := hr.isLive_of_links (mem_liveNodes.1 hu) hl
  exact ⟨g.nodeBlock edge.target, List.mem_map.2 ⟨_, mem_liveNodes.2 hlive, rfl⟩, rfl⟩

/-- In the picture of a merged graph, edges lead to blocks. -/
theorem drawn_mergedPicture (hr : g.Rooted) : ∀ b ∈ g.mergedPicture.blocks, ∀ e ∈ b.out,
    ∃ block ∈ g.mergedPicture.blocks, block.index = e.2 := by
  intro b hb e he
  obtain ⟨i, hi, rfl⟩ := List.mem_mapIdx.1 hb
  obtain ⟨edge, hm, rfl⟩ := List.mem_map.1 he
  obtain ⟨_, -, -, htarget, -⟩ := hr.mem_merged_edges.1 (List.mem_filter.1 hm).1
  obtain ⟨block, hb, -⟩ := mem_of_blockOf? htarget
  obtain ⟨hlt, -⟩ := List.getElem?_eq_some_iff.1 hb
  exact ⟨_, List.mem_mapIdx.2 ⟨edge.target, hlt, rfl⟩, rfl⟩

theorem drawable_picture (hr : g.Rooted)
    (ht : ∀ n ∈ g.nodes, ∀ span ∈ n.content.spans, span.InText source) :
    g.picture.Drawable source where
  texts b hb := by
    obtain ⟨u, -, rfl⟩ := List.mem_map.1 hb
    exact Picture.exists_blockText fun n hn => ht n (mem_nodes_of_mem_members hn)
  drawn := drawn_picture hr

theorem drawable_mergedPicture (hr : g.Rooted)
    (ht : ∀ n ∈ g.nodes, ∀ span ∈ n.content.spans, span.InText source) :
    g.mergedPicture.Drawable source where
  texts b hb := by
    obtain ⟨i, hi, rfl⟩ := List.mem_mapIdx.1 hb
    exact Picture.exists_blockText fun n hn => ht n (mem_nodes_of_mem_members hn)
  drawn := drawn_mergedPicture hr

end Graph

/-! ## From source to picture -/

/-- From a syntax tree to pictures without a fault.  All spans that are read off a tree over a text
lie in the text and have slices there.  Its functions are read, and all their spans lie in the text.
Each is rejected for a cause or has a graph, and then both pictures of the graph are drawn. -/
theorem Definition.read_built_and_drawn {source : String} {tree : SyntaxTree}
    (hsize : source.utf8ByteSize < UInt32.size) (htree : tree.Over source) :
    (∀ n ∈ tree.nodes, ∀ span ∈ n.spansRead source,
      span.InText source ∧ ∃ text, Text.slice? source span = some text) ∧
    Definition.ofSource source (some tree) = .ok (tree.functions source) ∧
    ∀ d ∈ tree.functions source, d.span.InText source ∧
      (∀ s ∈ bodyStatements d.body, ∀ span ∈ s.spans, span.InText source) ∧
      ∀ options, (∃ rejection, Graph.ofBody options d.body = .error (.rejected rejection)) ∨
        ∃ g raw merged, Graph.ofBody options d.body = .ok g ∧
          g.picture.draw source = .ok raw ∧ g.mergedPicture.draw source = .ok merged := by
  refine ⟨fun n hn span hs => ?_, ?_, fun d hd => ?_⟩
  · have hin := htree.inText_spansRead n hn span hs
    exact ⟨hin, hin.exists_slice?⟩
  · rw [Definition.ofSource, if_neg (Nat.not_le.2 hsize)]
  · obtain ⟨⟨_, hids⟩, hspan, hbody⟩ := SyntaxTree.numbered_of_mem_functions htree.reading hd
    refine ⟨hspan, hbody, fun options => ?_⟩
    cases hg : Graph.ofBody options d.body with
    | error failure =>
      -- no defect comes up in building, so a failure is a rejection
      cases failure with
      | defective defect => exact absurd hg (Graph.noDefect_ofBody options d.body defect)
      | rejected rejection => exact .inl ⟨rejection, rfl⟩
    | ok g =>
      have hr := Graph.rooted_ofBody hg
      have ht := Graph.inText_of_spanned hg hids.nodup hbody
      obtain ⟨raw, hraw⟩ := (Graph.drawable_picture hr ht).exists_draw
      obtain ⟨merged, hmerged⟩ := (Graph.drawable_mergedPicture hr ht).exists_draw
      exact .inr ⟨g, raw, merged, rfl, hraw, hmerged⟩

/-- A function whose only statement is a `with`; a letter of its header takes two bytes. -/
def accentedWith : String :=
  "def f():\n  with é:\n    pass"

/-- The syntax tree of that text. -/
def accentedWithTree : SyntaxTree :=
  .node .functionDefinition true ⟨0, 28⟩ none
    [.node .identifier true ⟨4, 5⟩ (some .name) [],
      .node .block true ⟨11, 28⟩ (some .body)
        [.node .withStatement true ⟨11, 28⟩ none
          [.node .identifier true ⟨16, 18⟩ none [], .node .colonToken false ⟨18, 19⟩ none [],
            .node .block true ⟨24, 28⟩ (some .body) [.node .passStatement true ⟨24, 28⟩ none []]]]]

theorem read_built_and_drawn_accentedWith :
    accentedWith.utf8ByteSize < UInt32.size ∧ accentedWithTree.Over accentedWith ∧
      Text.slice? accentedWith ⟨11, 19⟩ = some "with é:" ∧
      ∃ d ∈ accentedWithTree.functions accentedWith,
        (∀ s ∈ bodyStatements d.body, ∀ span ∈ s.spans, span.InText accentedWith) ∧
        ∃ g raw merged, Graph.ofBody {} d.body = .ok g ∧ g.picture.draw accentedWith = .ok raw ∧
          g.mergedPicture.draw accentedWith = .ok merged := by
  have hsize : accentedWith.utf8ByteSize < UInt32.size := by decide
  have htree : accentedWithTree.Over accentedWith := ⟨by decide, by decide⟩
  have h : ∃ d g, accentedWithTree.functions accentedWith = [d] ∧
      Graph.ofBody {} d.body = .ok g := ⟨_, _, rfl, rfl⟩
  obtain ⟨d, g, hd, hg⟩ := h
  have hm : d ∈ accentedWithTree.functions accentedWith := hd ▸ List.mem_cons_self
  obtain ⟨-, -, hall⟩ := Definition.read_built_and_drawn hsize htree
  obtain ⟨-, hspans, hbuilt⟩ := hall d hm
  refine ⟨hsize, htree, by decide, d, hm, hspans, ?_⟩
  rcases hbuilt {} with ⟨rejection, hr⟩ | hdrawn
  · cases hg.symm.trans hr
  · exact hdrawn

end Flowgraph
