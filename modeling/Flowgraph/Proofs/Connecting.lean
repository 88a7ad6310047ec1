import Flowgraph.Proofs.Skipping

/-!
# Connecting nodes

While a graph is made in a single pass, an edge is requested between two nodes; if they are
connected already, the request is dropped, with its label.  No label is lost in this way.  A
construction that does not fail requests the edges of a layout, and one that fails part of them,
and the edges of a layout that connect the same nodes are equal.

To say what an edge connects in a construction that fails, its nodes have to be there.  They are:
edges are requested between nodes that were made before, as each part of a construction keeps up
and the next part relies on.

## Main definitions

* `Piece.Closed` : the edges connect nodes of the piece.
* `Making.Safe` : a computation requests edges between nodes only.
* `Piece.ofRun` : what is made of a function, even if its construction fails.

## Main results

* `Making.Safe.bind` : computations that follow one another are safe if each of them is.
* `Job.run_sure` : building a body connects nodes only.
* `Graph.requests_met` : every request is met, or the same edge is there already.
-/

namespace Flowgraph

/-! ## Computations that connect nodes -/

/-- The edges connect nodes of the piece. -/
def Piece.Closed (p : Piece) : Prop :=
  ∀ e ∈ p.edges, p.size > e.source ∧ p.size > e.target

namespace Making

variable {α β : Type} {n m : Nat} {x : Making α} {f : α → Making β} {known : α → Nat → Prop}
  {known' : β → Nat → Prop}

/-- The edges that were requested connect nodes.  If the computation did not fail, it left `n`
nodes at least, and `known` is true of its value and their number. -/
def Keeps (n : Nat) (known : α → Nat → Prop) : EStateM.Result Failure Piece α → Prop
  | .ok a p => p.Closed ∧ n ≤ p.size ∧ known a p.size
  | .error _ p => p.Closed

/-- Once there are `n` nodes, the computation requests edges between nodes only. -/
def Safe (n : Nat) (x : Making α) (known : α → Nat → Prop) : Prop :=
  ∀ p : Piece, p.Closed → n ≤ p.size → Keeps p.size known (x p)

theorem Safe.mono (h : Safe n x known) (hm : n ≤ m) : Safe m x known :=
  fun p hp hle => h p hp (hm.trans hle)

theorem Safe.bind (hx : Safe n x known)
    (hf : ∀ a m, n ≤ m → known a m → Safe m (f a) known') : Safe n (x >>= f) known' := by
  intro p hp hn
  have hx := hx p hp hn
  cases hxp : x p with
  | error failure q =>
    rw [hxp] at hx
    rw [bind_apply_of_error hxp]
    exact hx
  | ok a q =>
    rw [hxp] at hx
    rw [bind_apply_of_ok hxp]
    obtain ⟨hq, hle, ha⟩ := hx
    -- the second step starts from the piece that the first one leaves, which is no smaller
    have hfa := hf a q.size (hn.trans hle) ha q hq le_rfl
    cases hfq : f a q with
    | error failure r => rwa [hfq] at hfa
    | ok b r =>
      rw [hfq] at hfa
      exact ⟨hfa.1, hle.trans hfa.2.1, hfa.2.2⟩

theorem safe_pure {a : α} (h : ∀ m, n ≤ m → known a m) : Safe n (pure a) known :=
  fun _ hp hn => ⟨hp, le_rfl, h _ hn⟩

theorem safe_settle (X : Except Failure α) : Safe n (settle X) fun _ _ => True := by
  intro p hp hn
  cases X with
  | error failure => exact hp
  | ok a => exact ⟨hp, le_rfl, trivial⟩

theorem safe_newNode (node : Node) : Safe n (newNode node) fun u m => m > u := by
  intro p hp hn
  refine ⟨fun e he => ?_, by simp, by simp⟩
  have := hp e (by simpa using he)
  rw [Piece.size_append_node]
  omega

theorem safe_add {q : Piece} (h : ∀ e ∈ q.edges, n > e.source ∧ n > e.target) :
    Safe n (add q) fun _ _ => True := by
  intro p hp hn
  refine ⟨fun e he => ?_, by simp, trivial⟩
  rw [Piece.size_append]
  rcases List.mem_append.1 he with he | he
  · have := hp e he
    omega
  · have := h e he
    omega

theorem safe_connect {u v : NodeId} (hu : n > u) (hv : n > v) (label : Label) :
    Safe n (connect u v label) fun _ _ => True :=
  safe_add (by simp [hu, hv])

theorem safe_connectFrom {u : Option NodeId} {v : NodeId} (hu : ∀ w ∈ u, n > w) (hv : n > v)
    (label : Label) : Safe n (connectFrom u v label) fun _ _ => True := by
  refine safe_add ?_
  cases u with
  | none => simp
  | some u => simpa using ⟨hu u rfl, hv⟩

theorem safe_record (exit : Exit) : Safe n (record exit) fun _ _ => True :=
  safe_add (by simp)

theorem safe_push (block : NodeId) (s : Stmt) : Safe n (push block s) fun _ _ => True := by
  intro p hp hn
  refine ⟨fun e he => ?_, by simp [Piece.size], trivial⟩
  simpa [Piece.size] using hp e he

theorem safe_mapM_newNode {γ : Type} (g : γ → Node) (list : List γ) :
    Safe n (list.mapM fun b => newNode (g b)) fun us m => ∀ u ∈ us, m > u := by
  induction list generalizing n with
  | nil => exact safe_pure (by simp)
  | cons b list ih =>
    rw [List.mapM_cons]
    refine (safe_newNode _).bind fun u m hm hu => ih.bind fun us m' hm' hus => safe_pure ?_
    intro k hk v hv
    rcases List.mem_cons.1 hv with rfl | hv
    · exact lt_of_lt_of_le hu (hm'.trans hk)
    · exact lt_of_lt_of_le (hus v hv) hk

theorem safe_forM_connect {us : List NodeId} {v : NodeId} (hu : ∀ u ∈ us, n > u) (hv : n > v)
    (label : Label) : Safe n (us.forM fun u => connect u v label) fun _ _ => True := by
  induction us generalizing n with
  | nil => exact safe_pure fun _ _ => trivial
  | cons u us ih =>
    refine (safe_connect (hu u (by simp)) hv label).bind fun _ m hm _ => ih (fun w hw => ?_) ?_
    · exact lt_of_lt_of_le (hu w (by simp [hw])) hm
    · exact lt_of_lt_of_le hv hm

end Making

open Making

/-! ## Nodes that are known -/

/-- The part begins and completes at nodes. -/
structure Fragment.Below (f : Fragment) (n : Nat) : Prop where
  entry : n > f.entry
  exit : ∀ u ∈ f.exit, n > u

/-- The sequence begins and continues at nodes. -/
structure Progress.Below (s : Progress) (n : Nat) : Prop where
  entry : ∀ u ∈ s.entry, n > u
  tail : ∀ u ∈ s.tail, n > u
  block : ∀ u ∈ s.block, n > u

/-- Jumps to the ends of the loops among the scopes lead to nodes. -/
def Scope.Below (n : Nat) (scopes : List Scope) : Prop :=
  ∀ ends, .loop ends ∈ scopes → n > ends.head ∧ n > ends.exit

theorem Fragment.below_of_lt {u v : NodeId} {n : Nat} (hu : n > u) (hv : n > v) :
    Fragment.Below ⟨u, some v⟩ n :=
  ⟨hu, by simpa using hv⟩

theorem Fragment.Below.mono {f : Fragment} {n m : Nat} (h : f.Below n) (hm : n ≤ m) : f.Below m :=
  ⟨h.entry.trans_le hm, fun u hu => (h.exit u hu).trans_le hm⟩

theorem Progress.Below.mono {s : Progress} {n m : Nat} (h : s.Below n) (hm : n ≤ m) : s.Below m :=
  ⟨fun u hu => (h.entry u hu).trans_le hm, fun u hu => (h.tail u hu).trans_le hm,
    fun u hu => (h.block u hu).trans_le hm⟩

theorem Scope.Below.mono {scopes : List Scope} {n m : Nat} (h : Below n scopes) (hm : n ≤ m) :
    Below m scopes :=
  fun ends he => ⟨(h ends he).1.trans_le hm, (h ends he).2.trans_le hm⟩

theorem Scope.Below.cons {scope : Scope} {scopes : List Scope} {n : Nat} (h : Below n scopes)
    (hscope : ∀ ends, scope = .loop ends → n > ends.head ∧ n > ends.exit) :
    Below n (scope :: scopes) := by
  intro ends he
  rcases List.mem_cons.1 he with he | he
  · exact hscope ends he.symm
  · exact h ends he

/-! ## Building a body connects nodes only -/

/-- Doing the job connects nodes only, if the ends of the loops around it are there. -/
def Job.Sure (call : Job → Making Fragment) (t : Job) : Prop :=
  ∀ n, Scope.Below n t.scopes → Safe n (call t) Fragment.Below

namespace Job

variable {call : Job → Making Fragment} {t : Job} {n : Nat}

theorem required_safe (h : Safe n (call t) Fragment.Below) (site : Site) :
    Safe n (t.required call site) Fragment.Below := by
  rw [required]
  split
  · exact fun p hp _ => hp
  · exact h

theorem arm_safe {body : List Stmt} (h : Safe n (call { t with body }) Fragment.Below)
    (site : Site) {source join : NodeId} (hs : n > source) (hj : n > join) (label : Label) :
    Safe n (t.arm call site source label body join) fun _ _ => True := by
  refine (required_safe h site).bind fun built m hm hb => ?_
  refine (safe_connect (hs.trans_le hm) hb.entry label).bind fun _ m' hm' _ => ?_
  exact safe_connectFrom (hb.mono hm').exit (hj.trans_le (hm.trans hm')) .always

theorem clauses_safe (site : Site) {join : NodeId} (rest : List BranchClause)
    (h : ∀ clause ∈ rest, Safe n (call { t with body := clause.body }) Fragment.Below)
    (hj : n > join) {test : NodeId} (ht : n > test) (hasElse : Bool) :
    Safe n (t.clauses call site join test hasElse rest) fun _ _ => True := by
  induction rest generalizing n test hasElse with
  | nil =>
    cases hasElse with
    | true => exact safe_pure fun _ _ => trivial
    | false => exact safe_connect ht hj .no
  | cons clause rest ih =>
    have hrest : ∀ m, n ≤ m → ∀ test, m > test → ∀ hasElse,
        Safe m (t.clauses call site join test hasElse rest) fun _ _ => True := fun m hm test ht =>
      ih (fun clause hc => (h clause (List.mem_cons_of_mem _ hc)).mono hm) (hj.trans_le hm) ht
    have hbody := h clause List.mem_cons_self
    obtain ⟨_, _ | header, body⟩ := clause
    -- an `else` clause hangs off the last test, and an `elif` clause brings a test of its own
    · refine (arm_safe hbody site ht hj .no).bind fun _ m hm _ => ?_
      exact hrest m hm test (ht.trans_le hm) true
    · refine (safe_newNode _).bind fun next m hm hnext => ?_
      refine (safe_connect (ht.trans_le hm) hnext .no).bind fun _ k hk _ => ?_
      have hk' := hm.trans hk
      refine (arm_safe (hbody.mono hk') site (hnext.trans_le hk) (hj.trans_le hk') .yes).bind
        fun _ l hl _ => ?_
      exact hrest l (hk'.trans hl) next (hnext.trans_le (hk.trans hl)) hasElse

theorem branch_safe {site : Site} {test : Span} {body : List Stmt} {rest : List BranchClause}
    (hx : .branch site test body rest ∈ t.body) (hcalls : ∀ t', t.Calls t' → t'.Sure call)
    (hs : Scope.Below n t.scopes) :
    Safe n (t.branch call site test body rest) Fragment.Below := by
  refine (safe_settle _).bind fun _ k hk _ => (safe_newNode _).bind fun head l hl hhead =>
    (safe_newNode _).bind fun join m hm hjoin => ?_
  have hs : Scope.Below m t.scopes := hs.mono (by omega)
  have hhead := hhead.trans_le hm
  refine (arm_safe (hcalls _ (.arm hx) m hs) site hhead hjoin .yes).bind fun _ o ho _ => ?_
  refine (clauses_safe site rest (fun clause hc => hcalls _ (.clause hx hc) o (hs.mono ho))
    (hjoin.trans_le ho) (hhead.trans_le ho) false).bind fun _ q hq _ => safe_pure fun m' hm' => ?_
  exact Fragment.below_of_lt (by omega) (by omega)

theorem afterLoop_safe (site : Site) {guard after : NodeId} {orelse : List Stmt}
    (h : ∀ region, Safe n (call { t with region, body := orelse }) Fragment.Below)
    (hg : n > guard) (ha : n > after) :
    Safe n (t.afterLoop call site guard after orelse) fun _ _ => True := by
  rw [afterLoop]
  split
  · exact safe_connect hg ha .no
  · refine (safe_settle _).bind fun region k hk _ => ((h region).mono hk).bind
      fun built l hl hb => ?_
    refine (safe_connect (by omega) hb.entry .no).bind fun _ m hm _ => ?_
    exact safe_connectFrom (hb.mono hm).exit (by omega) .always

theorem loop_safe {site : Site} {head : LoopHead} {body orelse : List Stmt}
    (hx : .loop site head body orelse ∈ t.body) (hcalls : ∀ t', t.Calls t' → t'.Sure call)
    (hs : Scope.Below n t.scopes) :
    Safe n (t.loop call site head.span body orelse) Fragment.Below := by
  refine (safe_newNode _).bind fun guard k hk hguard => (safe_newNode _).bind
    fun after l hl hafter => ?_
  have hs : Scope.Below l t.scopes := hs.mono (by omega)
  have hguard := hguard.trans_le hl
  -- jumps in the body may lead to both nodes of the loop
  have hloop : Scope.Below l (.loop ⟨guard, after⟩ :: t.scopes) := by
    refine hs.cons fun ends he => ?_
    cases he
    exact ⟨hguard, hafter⟩
  refine (required_safe (hcalls _ (.loop hx ⟨guard, after⟩) l hloop) site).bind
    fun built m hm hb => ?_
  refine (safe_connect (hguard.trans_le hm) hb.entry .yes).bind fun _ o ho _ => ?_
  refine (safe_connectFrom (hb.mono ho).exit (by omega) .loopBack).bind fun _ q hq _ => ?_
  refine (afterLoop_safe site (fun region => hcalls _ (.afterLoop hx region) q (hs.mono (by omega)))
    (by omega) (by omega)).bind fun _ r hr _ => safe_pure fun m' hm' => ?_
  exact Fragment.below_of_lt (by omega) (by omega)

theorem alternatives_safe (dispatch : NodeId) {body : NodeId} (index : Nat)
    {previous : Option NodeId} {tests : List NodeId} (hb : n > body) (hp : ∀ u ∈ previous, n > u)
    (ht : ∀ u ∈ tests, n > u) :
    Safe n (t.alternatives dispatch body index previous tests) fun r m => ∀ u ∈ r, m > u := by
  induction tests generalizing n previous with
  | nil =>
    have hpure : Safe n (pure previous) fun r m => ∀ u ∈ r, m > u :=
      safe_pure fun m hm u hu => (hp u hu).trans_le hm
    cases previous <;> exact hpure
  | cons test rest ih =>
    have htest := ht test List.mem_cons_self
    have hrest : ∀ m, n ≤ m → ∀ u ∈ rest, m > u := fun m hm u hu =>
      (ht u (List.mem_cons_of_mem _ hu)).trans_le hm
    cases previous with
    | none =>
      refine (safe_connect htest hb _).bind fun _ k hk _ => ?_
      exact ih (hb.trans_le hk) (by simp) (hrest k hk)
    | some previous =>
      have hprevious := hp previous rfl
      refine (safe_connect htest hb _).bind fun _ k hk _ =>
        (safe_connect (by omega) (by omega) _).bind fun _ l hl _ => ?_
      refine ih (by omega) (fun u hu => ?_) (hrest l (by omega))
      -- the next test hangs off this one, unless the dispatch is flat
      obtain rfl := Option.some.inj hu
      split <;> omega

theorem cases_safe (site : Site) {dispatch join : NodeId} (list : List MatchCase)
    (h : ∀ case ∈ list, Safe n (call { t with body := case.body }) Fragment.Below)
    (hd : n > dispatch) (hj : n > join) (index : Nat) {previous : Option NodeId}
    (hp : ∀ u ∈ previous, n > u) :
    Safe n (t.cases call site dispatch join index previous list) fun _ _ => True := by
  induction list generalizing n index previous with
  | nil =>
    cases previous with
    | none => exact safe_pure fun _ _ => trivial
    | some last =>
      refine (safe_connect hd hj .noMatch).bind fun _ k hk _ => ?_
      exact safe_connect ((hp last rfl).trans_le hk) (hj.trans_le hk) .noMatch
  | cons case list ih =>
    obtain ⟨_, head, body⟩ := case
    refine (safe_mapM_newNode _ _).bind fun tests k hk htests => ?_
    refine (required_safe ((h _ List.mem_cons_self).mono hk) site).bind fun built l hl hb => ?_
    refine (safe_connectFrom hb.exit (by omega) .always).bind fun _ m hm _ => ?_
    refine (alternatives_safe dispatch index (hb.mono hm).entry
      (fun u hu => (hp u hu).trans_le (by omega))
      fun u hu => (htests u hu).trans_le (by omega)).bind fun previous o ho hprevious => ?_
    refine ih (fun case hc => (h case (List.mem_cons_of_mem _ hc)).mono (by omega)) (by omega)
      (by omega) (index + 1) fun u hu => ?_
    -- after a case that accepts every subject nothing is left to try
    split at hu
    · cases hu
    · exact hprevious u hu

theorem dispatch_safe {site : Site} {subject : Span} {list : List MatchCase}
    (hx : .dispatch site subject list ∈ t.body) (hcalls : ∀ t', t.Calls t' → t'.Sure call)
    (hs : Scope.Below n t.scopes) :
    Safe n (t.dispatch call site subject list) Fragment.Below := by
  refine (safe_settle _).bind fun _ k hk _ => (safe_newNode _).bind fun dispatch l hl hd =>
    (safe_newNode _).bind fun join m hm hjoin => (safe_settle _).bind fun region o ho _ => ?_
  refine (cases_safe site list (fun case hc => hcalls _ (.case hx hc region) o (hs.mono (by omega)))
    (by omega) (by omega) 0 fun u hu => ?_).bind fun _ q hq _ => safe_pure fun m' hm' => ?_
  · obtain rfl := Option.some.inj hu
    omega
  · exact Fragment.below_of_lt (by omega) (by omega)

theorem handlers_safe (site : Site) {entry : NodeId} (list : List Handler)
    (h : ∀ handler ∈ list, ∀ region,
      Safe n (call { t with region, body := handler.body }) Fragment.Below)
    (he : n > entry) (index : Nat) :
    Safe n (t.handlers call site entry index list) fun us m => ∀ u ∈ us, m > u := by
  induction list generalizing n index with
  | nil => exact safe_pure (by simp)
  | cons handler list ih =>
    obtain ⟨_, _, body⟩ := handler
    refine (safe_settle _).bind fun region k hk _ => ?_
    refine (required_safe ((h _ List.mem_cons_self region).mono hk) site).bind
      fun built l hl hb => ?_
    refine (safe_connect (by omega) hb.entry _).bind fun _ m hm _ => ?_
    refine (ih (fun handler hh region => (h handler (List.mem_cons_of_mem _ hh) region).mono
      (by omega)) (by omega) (index + 1)).bind fun handled o ho hhandled => safe_pure ?_
    intro m' hm' u hu
    -- the ends of this handler, and those of the others
    rcases List.mem_append.1 hu with hu | hu
    · exact (hb.mono (by omega)).exit u (Option.mem_toList.1 hu)
    · exact (hhandled u hu).trans_le hm'

theorem afterBody_safe {whole : RegionId} {completed : Option NodeId} {orelse : List Stmt}
    (h : Safe n (call { t with region := whole, body := orelse }) Fragment.Below)
    (hc : ∀ u ∈ completed, n > u) :
    Safe n (t.afterBody call whole completed orelse) fun r m => ∀ u ∈ r, m > u := by
  rw [afterBody]
  split
  · exact safe_pure fun m hm u hu => (hc u hu).trans_le hm
  · refine h.bind fun built k hk hb => ?_
    refine (safe_connectFrom (fun u hu => (hc u hu).trans_le hk) hb.entry .orelse).bind
      fun _ l hl _ => safe_pure fun m hm => (hb.mono (by omega)).exit

theorem beforeJoin_safe {join : NodeId} {clause : List Stmt} {region : Option RegionId}
    (h : ∀ region, Safe n (call { t with region, body := clause }) Fragment.Below)
    (hj : n > join) : Safe n (t.beforeJoin call join clause region) fun v m => m > v := by
  cases region with
  | none => exact safe_pure fun m hm => hj.trans_le hm
  | some region =>
    refine (h region).bind fun built k hk hb => ?_
    refine (safe_connectFrom hb.exit (by omega) .always).bind fun _ l hl _ => ?_
    exact safe_pure fun m hm => (hb.mono (by omega)).entry

theorem below_watched {whole : RegionId} {clause : List Stmt} {region : Option RegionId}
    (hs : Scope.Below n t.scopes) : Scope.Below n (t.watched whole clause region).scopes := by
  cases region with
  | none => exact hs
  | some region => exact hs.cons (by simp)

theorem attempt_safe {site : Site} {body : List Stmt} {list : List Handler}
    {orelse final : List Stmt} (hx : .attempt site body list orelse final ∈ t.body)
    (hcalls : ∀ t', t.Calls t' → t'.Sure call) (hs : Scope.Below n t.scopes) :
    Safe n (t.attempt call site body list orelse final) Fragment.Below := by
  refine (safe_settle _).bind fun _ k hk _ => (safe_settle _).bind fun whole l hl _ =>
    (safe_newNode _).bind fun join m hm hjoin => (safe_settle _).bind fun clause o ho _ =>
    (safe_settle _).bind fun region q hq _ => ?_
  -- the body, the handlers and the `else` clause are built inside the `finally` clause
  have hpart : ∀ m', n ≤ m' → ∀ part ∈ body :: orelse :: list.map (·.body), ∀ region,
      Safe m' (call { t.watched whole final clause with region, body := part }) Fragment.Below :=
    fun m' hm' part hp region =>
      hcalls _ (.watched hx whole clause hp region) m' (below_watched (hs.mono hm'))
  refine (required_safe (hpart q (by omega) body (by simp) region) site).bind
    fun built k' hk' hb => ?_
  refine (handlers_safe site list (fun handler hh region => hpart k' (by omega) _
    (by simpa using .inr (.inr ⟨handler, hh, rfl⟩)) region) hb.entry 0).bind
    fun handled l' hl' hhandled => ?_
  refine (afterBody_safe (hpart l' (by omega) orelse (by simp) whole) (hb.mono hl').exit).bind
    fun completed m' hm' hcompleted => ?_
  refine (beforeJoin_safe (fun region => hcalls _ (.final hx region) m' (hs.mono (by omega)))
    (by omega)).bind fun target o' ho' htarget => ?_
  -- what completes is connected to the `finally` clause, or to the join
  refine (safe_forM_connect (fun u hu => ?_) htarget .always).bind fun _ q' hq' _ =>
    safe_pure fun r hr => ?_
  · rcases List.mem_append.1 hu with hu | hu
    · exact (hcompleted u (Option.mem_toList.1 hu)).trans_le ho'
    · exact (hhandled u hu).trans_le (by omega)
  · exact Fragment.below_of_lt (hb.mono (by omega)).entry (by omega)

theorem hold_safe {site : Site} {isAsync : Bool} {header : Span} {body : List Stmt}
    (hx : .hold site isAsync header body ∈ t.body) (hcalls : ∀ t', t.Calls t' → t'.Sure call)
    (hs : Scope.Below n t.scopes) : Safe n (t.hold call site header body) Fragment.Below := by
  refine (safe_settle _).bind fun region k hk _ => required_safe ?_ site
  exact hcalls _ (.hold hx region) k ((hs.mono hk).cons (by simp))

/-- A jump leads to a node that it makes itself, into a `finally` clause or to the end of a loop. -/
theorem unwind_safe (site : Site) (means : Jump) {source : NodeId} {scopes : List Scope}
    (h : ∀ clause whole region outer, .final clause whole region :: outer <:+ scopes →
      ({ t with region, scopes := outer, duplicate := true, body := clause } : Job).Sure call)
    (hn : n > source) (hs : Scope.Below n scopes) :
    Safe n (t.unwind call site means source scopes) fun _ _ => True := by
  induction scopes generalizing n source with
  | nil =>
    cases means with
    | returning | raising => exact safe_record _
    | breaking | continuing => exact fun p hp _ => hp
  | cons scope outer ih =>
    have houter : Scope.Below n outer := fun ends he => hs ends (List.mem_cons_of_mem _ he)
    -- from further out, the jump goes on from a node that may be newer
    have hrest : ∀ m, n ≤ m → ∀ source, m > source →
        Safe m (t.unwind call site means source outer) fun _ _ => True :=
      fun m hm source hsource => ih (fun clause whole region outer' h' =>
        h clause whole region outer' (h'.trans (List.suffix_cons scope outer))) hsource
        (houter.mono hm)
    cases scope with
    | loop ends =>
      have hends := hs ends List.mem_cons_self
      cases means with
      | returning | raising => exact hrest n le_rfl source hn
      | breaking => exact safe_connect hn hends.2 .always
      | continuing => exact safe_connect hn hends.1 .loopBack
    | resource header region =>
      -- two nodes are made: the release, and the place from which the jump carries on
      refine (safe_newNode _).bind fun release k hk hrelease => (safe_newNode _).bind
        fun next l hl hnext => ?_
      refine (safe_connect (by omega) (by omega) .always).bind fun _ m hm _ => ?_
      refine (safe_connect (by omega) (by omega) .always).bind fun _ o ho _ => ?_
      exact hrest o (by omega) next (by omega)
    | final clause whole region =>
      -- the clause is built once more; if the copy completes, the jump carries on behind it
      refine (h clause whole region outer List.suffix_rfl n houter).bind fun built k hk hb => ?_
      refine (safe_connect (by omega) hb.entry .always).bind fun _ l hl _ => ?_
      cases hexit : built.exit with
      | none => exact safe_pure fun _ _ => trivial
      | some last =>
        have hlast : k > last := hb.exit last hexit
        refine (safe_newNode _).bind fun next m hm hnext => ?_
        refine (safe_connect (by omega) hnext .resume).bind fun _ o ho _ => ?_
        exact hrest o (by omega) next (by omega)

theorem append_safe {s : Progress} (hs : s.Below n) {part : Fragment} (hp : part.Below n) :
    Safe n (s.append part) Progress.Below := by
  rw [Progress.append]
  cases he : s.entry with
  | none =>
    refine safe_pure fun m hm => ⟨fun u hu => ?_, (hp.mono hm).exit, by simp⟩
    exact Option.some.inj hu ▸ (hp.mono hm).entry
  | some entry =>
    have hentry : n > entry := hs.entry entry he
    refine (safe_connectFrom hs.tail hp.entry .always).bind fun _ k hk _ =>
      safe_pure fun m hm => ⟨fun u hu => ?_, (hp.mono (by omega)).exit, by simp⟩
    obtain rfl := Option.some.inj hu
    omega

theorem put_safe {s : Progress} (hs : s.Below n) (x : Stmt) :
    Safe n (t.put s x) fun r m => m > r.1 ∧ r.2.Below m := by
  rw [put]
  cases hb : s.block with
  | some block =>
    refine (safe_push block x).bind fun _ k hk _ => safe_pure fun m hm => ?_
    exact ⟨(hs.block block hb).trans_le (by omega), hs.mono (by omega)⟩
  | none =>
    refine (safe_newNode _).bind fun block k hk hblock => ?_
    refine (append_safe (hs.mono hk) (Fragment.below_of_lt hblock hblock)).bind fun s l hl hs => ?_
    refine (safe_push block x).bind fun _ m hm _ => safe_pure fun o ho => ?_
    refine ⟨hblock.trans_le (by omega), ?_⟩
    have hs := hs.mono (show l ≤ o by omega)
    exact ⟨hs.entry, hs.tail, by simp; omega⟩

/-- A statement continues a sequence between nodes. -/
theorem stmt_safe {x : Stmt} (hx : x ∈ t.body) (hcalls : ∀ t', t.Calls t' → t'.Sure call)
    (hs : Scope.Below n t.scopes) {s : Progress} (hp : s.Below n) :
    Safe n (t.stmt call s x) Progress.Below := by
  -- a straight-line statement joins the open block, or opens one
  have hput : Safe n (t.put s x >>= fun r => pure r.2) Progress.Below :=
    (put_safe hp x).bind fun r k hk hr => safe_pure fun m hm => hr.2.mono hm
  cases x with
  | simple site => exact hput
  | pass site => exact hput
  | marker site name =>
    rw [stmt]
    split
    · exact hput
    · exact safe_pure fun m hm => hp.mono hm
  | yield site =>
    refine (safe_newNode _).bind fun node k hk hnode => (safe_record _).bind fun _ l hl _ => ?_
    exact append_safe (hp.mono (by omega)) (Fragment.below_of_lt (by omega) (by omega))
  | jump site means =>
    -- the copies on the way out are built by jobs that this one calls
    have hunwind : ∀ m, n ≤ m → ∀ u, m > u →
        Safe m (t.unwind call site means u t.scopes) fun _ _ => True := fun m hm u hu =>
      unwind_safe site means (fun clause whole region outer h => hcalls _ (.replay hx h)) hu
        (hs.mono hm)
    by_cases hm : means = .raising
    -- `raise` has a node of its own, from which the jump unwinds
    · subst hm
      refine (safe_newNode _).bind fun node k hk hnode => ?_
      refine (append_safe (hp.mono hk) (Fragment.below_of_lt hnode hnode)).bind fun s l hl hs => ?_
      refine (hunwind l (by omega) node (by omega)).bind fun _ m hm _ => safe_pure fun o ho => ?_
      have hs := hs.mono (show l ≤ o by omega)
      exact ⟨hs.entry, by simp, hs.block⟩
    · rw [stmt_jump hm]
      refine (put_safe hp _).bind fun r k hk hr => (hunwind k hk r.1 hr.1).bind fun _ l hl _ =>
        safe_pure fun m hm => ?_
      exact ⟨(hr.2.mono (by omega)).entry, by simp, by simp⟩
  | branch site test body rest =>
    refine (branch_safe hx hcalls hs).bind fun part k hk hpart => ?_
    exact append_safe (hp.mono hk) hpart
  | loop site head body orelse =>
    refine (loop_safe hx hcalls hs).bind fun part k hk hpart => ?_
    exact append_safe (hp.mono hk) hpart
  | attempt site body list orelse final =>
    refine (attempt_safe hx hcalls hs).bind fun part k hk hpart => ?_
    exact append_safe (hp.mono hk) hpart
  | hold site isAsync header body =>
    refine (put_safe hp _).bind fun r k hk hr => ?_
    refine (hold_safe hx hcalls (hs.mono hk)).bind fun part l hl hpart => ?_
    exact append_safe (hr.2.mono hl) hpart
  | dispatch site subject list =>
    refine (dispatch_safe hx hcalls hs).bind fun part k hk hpart => ?_
    exact append_safe (hp.mono hk) hpart
  | unsupported site => exact fun p hp _ => hp

theorem stmts_safe (hcalls : ∀ t', t.Calls t' → t'.Sure call) (rest : List Stmt)
    (hx : ∀ x ∈ rest, x ∈ t.body) (hs : Scope.Below n t.scopes) {s : Progress} (hp : s.Below n) :
    Safe n (rest.foldlM (t.stmt call) s) Progress.Below := by
  induction rest generalizing n s with
  | nil => exact safe_pure fun m hm => hp.mono hm
  | cons x rest ih =>
    rw [List.foldlM_cons]
    refine (stmt_safe (hx x (by simp)) hcalls hs hp).bind fun s k hk hp => ?_
    exact ih (fun y hy => hx y (by simp [hy])) (hs.mono hk) hp

/-- Building a body connects nodes only, if the jobs inside it do. -/
theorem step_sure (hcalls : ∀ t', t.Calls t' → t'.Sure call) (hs : Scope.Below n t.scopes) :
    Safe n (t.step call) Fragment.Below := by
  refine (stmts_safe hcalls t.body (fun _ hx => hx) hs ⟨by simp, by simp, by simp⟩).bind
    fun s k hk hp => ?_
  cases he : s.entry with
  | some entry => exact safe_pure fun m hm => ⟨(hp.mono hm).entry entry he, (hp.mono hm).tail⟩
  | none =>
    refine (safe_newNode _).bind fun node l hl hnode => safe_pure fun m hm => ?_
    exact Fragment.below_of_lt (hnode.trans_le hm) (hnode.trans_le hm)

/-- Building a body connects nodes only. -/
theorem run_sure (t : Job) : t.Sure run := by
  induction hw : t.weight using Nat.strong_induction_on generalizing t with
  | _ weight ih =>
    subst hw
    intro n hs
    rw [run_eq_step]
    exact step_sure (fun t' hcall => ih _ hcall.weight_lt t' rfl) hs

end Job

/-- The construction of a function requests edges between nodes only. -/
theorem safe_construct (options : Options) (body : List Stmt) :
    Safe 0 (construct options body) fun u m => m > u := by
  rw [construct]
  split
  · exact fun p hp _ => hp
  · refine (safe_newNode _).bind fun entry k hk hentry => ?_
    refine ((Job.ofBody options body).run_sure k (by simp [Scope.Below, Job.ofBody])).bind
      fun built l hl hb => ?_
    refine (safe_connect (by omega) hb.entry .always).bind fun _ m hm _ => ?_
    refine (safe_newNode _).bind fun exit o ho hexit => ?_
    refine (safe_connectFrom (hb.mono (by omega)).exit hexit .always).bind fun _ q hq _ => ?_
    exact (safe_record _).bind fun _ r hr _ => safe_pure fun r' hr' => by omega

/-! ## Requests are met -/

/-- What is made of a function, even if its construction fails. -/
def Piece.ofRun (options : Options) (body : List Stmt) : Piece :=
  match construct options body .nil with
  | .ok _ p | .error _ p => p

namespace Piece

theorem closed_ofRun (options : Options) (body : List Stmt) : (ofRun options body).Closed := by
  have h := safe_construct options body .nil (by simp [Closed]) (Nat.zero_le _)
  rw [ofRun]
  cases hr : construct options body .nil with
  | ok exit p =>
    rw [hr] at h
    exact h.1
  | error failure p =>
    rw [hr] at h
    exact h

theorem ofRun_of_plan {options : Options} {body : List Stmt} {plan : Plan}
    (h : Plan.ofBody options (RegionTree.ofBody body) body = .ok plan) :
    ofRun options body = (ofPlan options.flatDispatch plan).1 := by
  have hrun := construct_conforms options body
  rw [h, conforms_ok] at hrun
  rw [ofRun, hrun]

/-- Also where the construction fails, the test that an edge leaves if nothing matches is one of a
`match` statement of the body. -/
theorem skipsAtTests_ofRun (options : Options) (body : List Stmt) :
    (ofRun options body).SkipsAtTests (bodyStatements body) := by
  have h := unobtrusive_construct options body .nil (by simp [SkipsAtTests]) (by simp)
  rw [ofRun]
  cases hr : construct options body .nil with
  | ok exit p =>
    rw [hr] at h
    exact h.1
  | error failure p =>
    rw [hr] at h
    exact h

/-- What is made of a function is the beginning of a layout. -/
theorem starts_ofRun (options : Options) (body : List Stmt) :
    ∃ plan, (ofRun options body).Starts (ofPlan options.flatDispatch plan).1 := by
  have h := construct_conforms options body
  cases hplan : Plan.ofBody options (RegionTree.ofBody body) body with
  | ok plan =>
    rw [ofRun_of_plan hplan]
    exact ⟨plan, .refl _⟩
  | error failure =>
    rw [hplan] at h
    obtain ⟨plan, p, hr, hp⟩ := h
    rw [ofRun, hr]
    exact ⟨plan, hp⟩

theorem Starts.hasContent {p q : Piece} (h : p.Starts q) {u : Nat} (hu : u < p.size)
    {content : Content} (hq : q.HasContent u content) : p.HasContent u content := by
  obtain ⟨node, hnode, hcontent⟩ := hq
  obtain ⟨rest, hrest⟩ := h.nodes
  refine ⟨node, ?_, hcontent⟩
  rwa [← hrest, List.getElem?_append_left hu] at hnode

/-- A layout that is cut short requests no edge twice that it would not request twice otherwise. -/
theorem Starts.pairwise_harmless {p q : Piece} (h : p.Starts q) (hp : p.Closed)
    (hq : q.edges.Pairwise q.Harmless) : p.edges.Pairwise p.Harmless := by
  refine (hq.sublist h.edges.sublist).imp_of_mem fun {e o} he _ heo hpar => ?_
  obtain ⟨heq, hskip⟩ := heo hpar
  obtain ⟨subject, hsubject⟩ := hskip.subject
  exact ⟨heq, hskip.label, hskip.target, ⟨subject, h.hasContent (hp e he).1 hsubject⟩,
    h.hasContent (hp e he).2 hskip.join⟩

theorem pairwise_harmless_ofRun (options : Options) (body : List Stmt) :
    (ofRun options body).edges.Pairwise (ofRun options body).Harmless := by
  obtain ⟨plan, hstarts⟩ := starts_ofRun options body
  exact hstarts.pairwise_harmless (closed_ofRun options body)
    (pairwise_harmless_ofPlan options.flatDispatch plan)

end Piece

/-- If related entries are equal, none is lost. -/
theorem mem_keepFirst_of_pairwise {α : Type} {r : α → α → Bool} {l : List α}
    (h : l.Pairwise fun a b => r a b = true → a = b) {a : α} (ha : a ∈ l) : a ∈ keepFirst r l := by
  induction l using List.reverseRecOn with
  | nil => cases ha
  | append_singleton l c ih =>
    obtain ⟨hl, -, hc⟩ := List.pairwise_append.1 h
    rw [keepFirst_concat]
    rcases List.mem_append.1 ha with ha | ha
    · split
      · exact ih hl ha
      · exact List.mem_append_left _ (ih hl ha)
    · obtain rfl := List.mem_singleton.1 ha
      split
      next hany =>
        -- the earlier entry in its place is the same one
        obtain ⟨b, hb, hr⟩ := List.any_eq_true.1 hany
        exact hc b ((keepFirst_sublist r l).subset hb) a ha hr ▸ hb
      next => exact List.mem_append_right _ ha

/-- **No label is lost to an older edge.**  An edge that is requested between nodes that are
connected already is the edge between them, and leads past the cases of a `match` statement of the
body, from its subject.  So the graph has every edge that was requested, and one edge per pair of
nodes at most. -/
theorem Graph.requests_met (options : Options) (body : List Stmt) :
    (∀ before e after, (Piece.ofRun options body).edges = before ++ e :: after →
      ∀ o ∈ Edge.firstPerPair before, o.parallel e = true →
        o = e ∧ (Piece.ofRun options body).SkipsCases e ∧
          ∃ site subject list, .dispatch site subject list ∈ bodyStatements body ∧
            (Piece.ofRun options body).HasContent e.source (.test subject)) ∧
    (∀ e ∈ (Piece.ofRun options body).edges,
      e ∈ Edge.firstPerPair (Piece.ofRun options body).edges) ∧
    ((Edge.firstPerPair (Piece.ofRun options body).edges).Pairwise fun e o =>
      e.parallel o = false) ∧
    ∀ g, ofBody options body = .ok g →
      g.edges = Edge.firstPerPair (Piece.ofRun options body).edges := by
  have hpair := Piece.pairwise_harmless_ofRun options body
  refine ⟨fun before e after h o ho hpar => ?_, fun e he => ?_, pairwise_keepFirst _ _,
    fun g hg => ?_⟩
  · rw [h] at hpair
    have ho : o ∈ before := (keepFirst_sublist _ before).subset ho
    -- of two requests for the same nodes the later one asks for nothing new
    obtain ⟨rfl, hskip⟩ := (List.pairwise_append.1 hpair).2.2 o ho e List.mem_cons_self hpar
    exact ⟨rfl, hskip, hskip.exists_dispatch (Piece.skipsAtTests_ofRun options body)
      (h ▸ List.mem_append_left _ ho)⟩
  · exact mem_keepFirst_of_pairwise (hpair.imp fun h hpar => (h hpar).1) he
  · obtain ⟨plan, hplan, hpiece, -⟩ := ofPiece_ofBody hg
    rw [hpiece.edges, Piece.ofRun_of_plan hplan]

end Flowgraph
