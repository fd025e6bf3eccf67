import Mathlib.Data.List.Induction
import LexicalScope.Proofs.Walk.Descent
import LexicalScope.Tree.Walker

/-! # Walkers and reports

A walker calls its visitors for the reports of the walk one after the other, each with the chain of
the report, until a visitor interrupts it or the walk meets a fault. Every visit leaves the chain as
it was, so a walker that has ended a walk in any way is as good as a new one.
-/

namespace LexicalScope

variable {σ : Type} {visitors : Visitors σ}

namespace Visitors

def call (visitors : Visitors σ) (e : Event) (state : σ) : σ × Bool :=
  match visitors e.kind with
  | none => (state, false)
  | some visitor => visitor e.node e.chain state

/-- Call the visitors for some reports in turn, until one of them asks to stop. -/
def play (visitors : Visitors σ) : List Event → σ → σ × Bool
  | [], state => (state, false)
  | e :: es, state =>
    match visitors.call e state with
    | (state, true) => (state, true)
    | (state, false) => play visitors es state

theorem play_append (visitors : Visitors σ) (es fs : List Event) (state : σ) :
    visitors.play (es ++ fs) state =
      if (visitors.play es state).2 then visitors.play es state
      else visitors.play fs (visitors.play es state).1 := by
  induction es generalizing state with
  | nil => rfl
  | cons e es ih =>
    rcases h : visitors.call e state with ⟨state', _ | _⟩
    · simp only [List.cons_append, play, h]
      exact ih state'
    · simp [play, h]

end Visitors

namespace Walker

variable {w : Walker σ} {n : Node} {below : Action σ}

/-- The walker after walks through some trees, however each of them ended. -/
def after (visitors : Visitors σ) : List Tree → Walker σ → Walker σ
  | [], w => w
  | t :: ts, w => after visitors ts (walk visitors t w).1

theorem inTurn_cons_of_ends {a : Action σ} {w' : Walker σ} (h : a w = (w', none))
    (as : List (Action σ)) : inTurn (a :: as) w = inTurn as w' := by
  rw [inTurn, h]

theorem inTurn_cons_of_interrupted {a : Action σ} {w' : Walker σ} {i : Interrupt}
    (h : a w = (w', some i)) (as : List (Action σ)) : inTurn (a :: as) w = (w', some i) := by
  rw [inTurn, h]

theorem inTurn_append (as bs : List (Action σ)) (w : Walker σ) :
    inTurn (as ++ bs) w = inTurn (inTurn as :: bs) w := by
  induction as generalizing w with
  | nil => rfl
  | cons a as ih =>
    rw [List.cons_append]
    rcases h : a w with ⟨w', _ | i⟩
    · rw [inTurn_cons_of_ends h, ih, inTurn, inTurn, inTurn_cons_of_ends h]
    · rw [inTurn_cons_of_interrupted h,
        inTurn_cons_of_interrupted (inTurn_cons_of_interrupted h as)]

theorem inTurn_singleton (a : Action σ) (w : Walker σ) : inTurn [a] w = a w := by
  rcases h : a w with ⟨w', _ | i⟩
  · rw [inTurn_cons_of_ends h, inTurn]
  · rw [inTurn_cons_of_interrupted h]

/-- An action that leaves the chain as it found it, whether or not it interrupts the walk. -/
def Balanced (a : Action σ) : Prop := ∀ w, (a w).1.chain = w.chain

theorem balanced_inTurn {as : List (Action σ)} (h : ∀ a ∈ as, Balanced a) :
    Balanced (inTurn as) := by
  induction as with
  | nil => exact fun w => rfl
  | cons a as ih =>
    obtain ⟨ha, has⟩ := List.forall_mem_cons.mp h
    intro w
    have own := ha w
    rcases hw : a w with ⟨w', _ | i⟩
    · rw [inTurn_cons_of_ends hw, ih has w', ← own, hw]
    · rw [inTurn_cons_of_interrupted hw, ← own, hw]

theorem balanced_breakOff (fault : Option Fault) : Balanced (breakOff fault : Action σ) :=
  fun _ => rfl

theorem balanced_report (n : Node) (kind : Kind) : Balanced (report visitors n kind) := by
  intro w
  unfold report
  split
  · rfl
  · split <;> rfl

theorem balanced_visitAs (h : Balanced below) (kind : Kind) :
    Balanced (visitAs visitors n below kind) := by
  have inner : Balanced (inTurn [below, report visitors n kind]) :=
    balanced_inTurn (by simp [h, balanced_report])
  intro w
  unfold visitAs
  split
  · exact inner w
  · exact congrArg List.tail (inner (w.enter n))

theorem balanced_foldl_visitAs (h : Balanced below) (kinds : List Kind) :
    Balanced (kinds.foldl (visitAs visitors n) below) := by
  induction kinds generalizing below with
  | nil => exact h
  | cons kind kinds ih => exact ih (balanced_visitAs h kind)

theorem visit_of_node?_eq_none {s : Slot} (h : s.value.node? = none) (w : Walker σ) :
    visit visitors s w = (w, none) := by
  rw [visit]
  split
  · rfl
  · simp_all

theorem visit_of_node?_eq_some {s : Slot} (h : s.value.node? = some n) (w : Walker σ) :
    visit visitors s w = (n.reports s.target).foldl (visitAs visitors n)
      (inTurn (n.slots.items.map (visit visitors) ++ [breakOff n.slots.fault])) w := by
  rw [visit]
  split
  · simp_all
  · next m hm =>
    obtain rfl : m = n := Option.some.inj (hm.symm.trans h)
    rw [List.attach_map_val]

theorem balanced_visit (s : Slot) : Balanced (visit visitors s) := by
  induction s using slot_induction with
  | step s ih =>
    intro w
    cases hn : s.value.node? with
    | none => rw [visit_of_node?_eq_none hn]
    | some n =>
      rw [visit_of_node?_eq_some hn]
      refine balanced_foldl_visitAs (balanced_inTurn fun a ha => ?_) _ w
      rcases List.mem_append.mp ha with ha | ha
      · obtain ⟨c, hc, rfl⟩ := List.mem_map.mp ha
        exact ih n hn c hc
      · obtain rfl := List.mem_singleton.mp ha
        exact balanced_breakOff _

/-- What visitors make of the reports of a yield and of the fault that broke it off. -/
def replay (visitors : Visitors σ) (y : Yield Event) : Action σ := fun w =>
  let (state, stopped) := visitors.play y.items w.state
  ({ w with state }, if stopped then some .stopped else y.fault.map .fault)

theorem balanced_replay (y : Yield Event) : Balanced (replay visitors y) := fun _ => rfl

theorem replay_append (p q : Yield Event) (w : Walker σ) :
    replay visitors (p ++ q) w = inTurn [replay visitors p, replay visitors q] w := by
  obtain ⟨es, _ | f⟩ := p
  · rw [inTurn]
    simp only [replay, Yield.append_mk_none, Visitors.play_append, inTurn_singleton]
    cases h : (visitors.play es w.state).2 <;> simp [h]
  · have interrupted : ∃ i, replay visitors ⟨es, some f⟩ w =
        ({ w with state := (visitors.play es w.state).1 }, some i) := by
      cases h : (visitors.play es w.state).2 <;> simp [replay, h]
    obtain ⟨i, hi⟩ := interrupted
    rw [Yield.append_mk_some, inTurn_cons_of_interrupted hi, hi]

theorem replay_collect {α : Type} (f : α → Yield Event) (as : List α) (w : Walker σ) :
    replay visitors (.collect f as) w = inTurn (as.map fun a => replay visitors (f a)) w := by
  induction as generalizing w with
  | nil => rfl
  | cons a as ih =>
    rw [Yield.collect_cons, replay_append, List.map_cons]
    rcases h : replay visitors (f a) w with ⟨w', _ | i⟩
    · rw [inTurn_cons_of_ends h, inTurn_cons_of_ends h, inTurn_singleton, ih]
    · rw [inTurn_cons_of_interrupted h, inTurn_cons_of_interrupted h]

theorem inTurn_cons_congr {a b : Action σ} {as bs : List (Action σ)} (first : a w = b w)
    (keeps : Balanced b) (rest : ∀ w', w'.chain = w.chain → inTurn as w' = inTurn bs w') :
    inTurn (a :: as) w = inTurn (b :: bs) w := by
  have kept := keeps w
  rcases h : b w with ⟨w', _ | i⟩ <;> rw [h] at first kept
  · rw [inTurn_cons_of_ends h, inTurn_cons_of_ends first, rest w' kept]
  · rw [inTurn_cons_of_interrupted h, inTurn_cons_of_interrupted first]

theorem inTurn_congr {α : Type} {f g : α → Action σ} {as : List α} {chain : List Node}
    (same : ∀ a ∈ as, ∀ w, w.chain = chain → f a w = g a w) (keeps : ∀ a ∈ as, Balanced (g a))
    (hw : w.chain = chain) : inTurn (as.map f) w = inTurn (as.map g) w := by
  induction as generalizing w with
  | nil => rfl
  | cons a as ih =>
    obtain ⟨own, rest⟩ := List.forall_mem_cons.mp same
    obtain ⟨keep, keeps⟩ := List.forall_mem_cons.mp keeps
    exact inTurn_cons_congr (own w hw) keep fun w' hw' => ih rest keeps (hw'.trans hw)

theorem foldl_visitAs_of_isIn (visitors : Visitors σ) (below : Action σ) (hw : w.isIn n = true)
    (kinds : List Kind) :
    kinds.foldl (visitAs visitors n) below w =
      inTurn (below :: kinds.map (report visitors n)) w := by
  induction kinds using List.reverseRecOn generalizing w with
  | nil => rw [List.map_nil, inTurn_singleton, List.foldl_nil]
  | append_singleton kinds kind ih =>
    rw [List.foldl_append, List.foldl_cons, List.foldl_nil, visitAs, if_pos hw, List.map_append,
      ← List.cons_append, inTurn_append, List.map_singleton]
    have first := ih hw
    rcases h : kinds.foldl (visitAs visitors n) below w with ⟨w', _ | i⟩ <;> rw [h] at first
    · rw [inTurn_cons_of_ends h, inTurn_cons_of_ends first.symm]
    · rw [inTurn_cons_of_interrupted h, inTurn_cons_of_interrupted first.symm]

theorem foldl_visitAs_of_not_isIn (hw : w.isIn n = false) {kinds : List Kind}
    (some_kind : kinds ≠ []) :
    kinds.foldl (visitAs visitors n) below w =
      ((inTurn (below :: kinds.map (report visitors n)) (w.enter n)).1.leave,
        (inTurn (below :: kinds.map (report visitors n)) (w.enter n)).2) := by
  obtain ⟨kinds, kind, rfl⟩ : ∃ init last, kinds = init ++ [last] :=
    ⟨_, _, (List.dropLast_append_getLast some_kind).symm⟩
  have inside : (w.enter n).isIn n = true := by simp [isIn, enter]
  have inner := foldl_visitAs_of_isIn visitors below inside (kinds ++ [kind])
  rw [List.foldl_append, List.foldl_cons, List.foldl_nil, visitAs, if_pos inside] at inner
  rw [List.foldl_append, List.foldl_cons, List.foldl_nil, visitAs, if_neg (by simp [hw]), ← inner]

theorem report_eq_replay {kind : Kind} {outer : List Node} (hk : kind ≠ .compound)
    (hw : w.chain = n :: outer) :
    report visitors n kind w = replay visitors (.single ⟨kind, n, outer⟩) w := by
  have chain : (Event.mk kind n outer).chain = w.chain.reverse := by rw [hw, Event.chain]
  simp only [report, if_neg hk, replay, Yield.items_single, Visitors.play, Visitors.call, chain]
  cases visitors kind with
  | none => rfl
  | some visitor => rcases h : visitor n w.chain.reverse w.state with ⟨state, _ | _⟩ <;> simp [h]

theorem reports_eq_replay {outer : List Node} {target : Bool} (hw : w.chain = n :: outer) :
    inTurn ((n.reports target).map (report visitors n)) w =
      replay visitors (n.events outer target) w := by
  unfold Node.events
  split
  · next hk =>
    simp only [Node.reports, hk, List.map_singleton, inTurn_singleton, report]
    rfl
  · next hk =>
    have single (kinds : List Kind) : Yield.ofList (kinds.map (Event.mk · n outer)) =
        .collect (fun kind => .single ⟨kind, n, outer⟩) kinds := by
      induction kinds with
      | nil => rfl
      | cons kind kinds ih => rw [Yield.collect_cons, ← ih]; rfl
    rw [single, replay_collect]
    refine inTurn_congr (fun kind hkind w hw => report_eq_replay ?_ hw)
      (fun _ _ => balanced_replay _) hw
    rintro rfl
    rcases Node.kind_of_mem_reports hkind with h | h | h | h
    · exact hk h.symm
    all_goals cases h.2

/-- A visit calls the visitors for what the walk reports below the chain of the walker. -/
theorem visit_eq_replay {s : Slot} (nodup : s.value.labels.Nodup)
    (outside : ∀ m ∈ w.chain.head?, m.label ∉ s.value.labels) :
    visit visitors s w = replay visitors (LexicalScope.walk w.chain s) w := by
  induction s using slot_induction generalizing w with
  | step s ih =>
    cases hn : s.value.node? with
    | none =>
      rw [visit_of_node?_eq_none hn, walk_of_node?_eq_none hn]
      rfl
    | some n =>
      rw [← Tree.tree_of_node? hn] at nodup outside
      have notIn : w.isIn n = false := by
        cases hc : w.chain with
        | nil => simp [isIn, hc]
        | cons m ms =>
          have other : m.label ≠ n.label := fun same =>
            outside m (by simp [hc]) (same ▸ List.mem_cons_self)
          simp [isIn, hc, other]
      have slots (w' : Walker σ) (hw' : w'.chain = n :: w.chain) :
          inTurn (n.slots.items.map (visit visitors)) w' =
            replay visitors (.collect (LexicalScope.walk (n :: w.chain)) n.slots.items) w' := by
        rw [replay_collect]
        refine inTurn_congr (fun c hc w'' hw'' => ?_) (fun _ _ => balanced_replay _) hw'
        rw [← hw'']
        refine ih n hn c hc (Node.nodup_slot nodup hc) ?_
        rw [hw'', List.head?_cons]
        rintro m hm below
        obtain rfl := Option.some.inj hm
        exact (Node.nodup_labels nodup).1 (n.labels_slot_subset hc below)
      rw [visit_of_node?_eq_some hn, walk_of_node?_eq_some hn,
        foldl_visitAs_of_not_isIn notIn (n.reports_ne_nil s.target)]
      have inner :
          inTurn (inTurn (n.slots.items.map (visit visitors) ++ [breakOff n.slots.fault]) ::
            (n.reports s.target).map (report visitors n)) (w.enter n) =
          replay visitors (n.slots.flatMap (LexicalScope.walk (n :: w.chain)) ++
            n.events w.chain s.target) (w.enter n) := by
        rw [replay_append]
        refine inTurn_cons_congr ?_ (balanced_replay _) fun w' hw' => ?_
        · rw [inTurn_append, Yield.flatMap, replay_append]
          exact inTurn_cons_congr (slots _ rfl) (balanced_replay _) fun _ _ => rfl
        · rw [inTurn_singleton, reports_eq_replay hw']
      rw [inner]
      rfl

theorem walk_eq_replay {t : Tree} (nodup : t.labels.Nodup) (hw : w.chain = []) :
    walk visitors t w = replay visitors t.events w := by
  rw [walk, visit_eq_replay nodup (by simp [hw]), hw, Tree.events]

theorem chain_after (visitors : Visitors σ) (ts : List Tree) (w : Walker σ) :
    (after visitors ts w).chain = w.chain := by
  induction ts generalizing w with
  | nil => rfl
  | cons t ts ih => exact (ih _).trans (balanced_visit _ w)

end Walker

def Event.isOf (kinds : List Kind) (e : Event) : Bool := kinds.contains e.kind

namespace EventLog

variable {log : EventLog} {n : Nat}

theorem call_visitor (e : Event) (log : EventLog) :
    Visitors.call visitor e log =
      if e.isOf log.kinds then
        ({ log with events := log.events ++ [e] }, log.limit == some (log.events.length + 1))
      else (log, false) := by
  have same : e.chain.reverse.tail = e.outer := by simp [Event.chain]
  simp only [Visitors.call, visitor, same, List.length_append, List.length_singleton]
  rfl

theorem play_cons_of_not_isOf {e : Event} (h : e.isOf log.kinds = false) (es : List Event) :
    Visitors.play visitor (e :: es) log = Visitors.play visitor es log := by
  simp [Visitors.play, call_visitor, h]

theorem events_play (h : log.limit = none) (es : List Event) :
    (Visitors.play visitor es log).1.events = log.events ++ es.filter (Event.isOf log.kinds) := by
  induction es generalizing log with
  | nil => simp [Visitors.play]
  | cons e es ih =>
    cases hk : e.isOf log.kinds with
    | true =>
      have goes :
          Visitors.call visitor e log = ({ log with events := log.events ++ [e] }, false) := by
        simp [call_visitor, hk, h]
      rw [Visitors.play, goes, List.filter_cons_of_pos hk]
      refine (@ih { log with events := log.events ++ [e] } h).trans ?_
      rw [List.append_assoc, List.singleton_append]
    | false =>
      rw [play_cons_of_not_isOf hk, List.filter_cons_of_neg (by simp [hk])]
      exact ih h

theorem events_play_of_limit (h : log.limit = some n) (short : log.events.length < n)
    (es : List Event) : (Visitors.play visitor es log).1.events =
      (log.events ++ es.filter (Event.isOf log.kinds)).take n := by
  induction es generalizing log with
  | nil =>
    rw [List.filter_nil, List.append_nil, List.take_of_length_le (Nat.le_of_lt short)]
    rfl
  | cons e es ih =>
    cases hk : e.isOf log.kinds with
    | true =>
      rw [List.filter_cons_of_pos hk, List.append_cons]
      have length : (log.events ++ [e]).length = log.events.length + 1 := by simp
      rcases Nat.lt_or_ge (log.events.length + 1) n with more | full
      · have goes : Visitors.call visitor e log =
            ({ log with events := log.events ++ [e] }, false) := by
          simp [call_visitor, hk, h, Nat.ne_of_gt more]
        rw [Visitors.play, goes]
        exact ih h (length ▸ more)
      · obtain rfl : n = log.events.length + 1 := by omega
        have stops : Visitors.call visitor e log =
            ({ log with events := log.events ++ [e] }, true) := by
          simp [call_visitor, hk, h]
        rw [Visitors.play, stops, List.take_append_of_le_length (Nat.le_of_eq length.symm),
          List.take_of_length_le (Nat.le_of_eq length)]
    | false =>
      rw [play_cons_of_not_isOf hk, List.filter_cons_of_neg (by simp [hk])]
      exact ih h short

end EventLog

namespace Walker

/-- Whatever walks came before, a walker calls the visitors for the reports on a tree in turn and is
in no node again. -/
theorem walk_after_walks (visitors : Visitors σ) (ts : List Tree) (state : σ) (t : Tree)
    (nodup : t.labels.Nodup) :
    let w := after visitors ts (start state)
    let seen (log : EventLog) := (walk EventLog.visitor t (start log)).1.state.events
    w.chain = [] ∧ walk visitors t w = walk visitors t (start w.state) ∧
      walk visitors t w = (start (visitors.play t.events.items w.state).1,
        if (visitors.play t.events.items w.state).2 then some .stopped
        else t.events.fault.map .fault) ∧
      (∀ e ∈ t.events.items, t.DescendsTo e.chain e.node) ∧
      ∀ kinds, seen ⟨kinds, none, []⟩ = t.events.items.filter (Event.isOf kinds) ∧
        ∀ n, seen ⟨kinds, some (n + 1), []⟩ = (seen ⟨kinds, none, []⟩).take (n + 1) := by
  intro w seen
  have left : w.chain = [] := chain_after visitors ts (start state)
  have seen_eq (log : EventLog) :
      seen log = (Visitors.play EventLog.visitor t.events.items log).1.events := by
    simp only [seen, walk_eq_replay nodup (show (start log).chain = [] from rfl)]
    rfl
  have replayed : walk visitors t w = replay visitors t.events w := walk_eq_replay nodup left
  have fresh : walk visitors t (start w.state) = replay visitors t.events (start w.state) :=
    walk_eq_replay nodup rfl
  have same : w = start w.state := by rw [start, ← left]
  refine ⟨left, same ▸ rfl, replayed.trans (same ▸ rfl),
    fun e he => descendsTo_of_mem_events nodup he, fun kinds => ?_⟩
  have all : seen ⟨kinds, none, []⟩ = t.events.items.filter (Event.isOf kinds) := by
    rw [seen_eq, EventLog.events_play rfl, List.nil_append]
  refine ⟨all, fun n => ?_⟩
  rw [seen_eq, all, EventLog.events_play_of_limit rfl (Nat.succ_pos n), List.nil_append]

/-- A walk stopped at its first identifier leaves the walker in no node, and the next one sees both
identifiers. -/
theorem walk_after_walks_arrow :
    let program := arrowProgram.tree
    let stopped := after EventLog.visitor [program] (start ⟨[.identifier], some 1, []⟩)
    program.labels.Nodup ∧ stopped.state.events.length = 1 ∧ stopped.chain = [] ∧
      (walk EventLog.visitor program
        { stopped with state := ⟨[.identifier], none, []⟩ }).1.state.events.map
          (fun e => e.chain.map Node.label) = [[0, 2, 5, 7], [0, 2, 5, 8]] := by
  intro program stopped
  have nodup : program.labels.Nodup := by decide
  obtain ⟨left, -⟩ :=
    walk_after_walks EventLog.visitor [program] ⟨[.identifier], some 1, []⟩ program nodup
  obtain ⟨-, -, -, -, seen⟩ :=
    walk_after_walks EventLog.visitor [] ⟨[.identifier], some 1, []⟩ program nodup
  obtain ⟨all, first⟩ := seen [.identifier]
  refine ⟨nodup, ?_, left, ?_⟩
  · refine (congrArg List.length (first 0)).trans ?_
    rw [all]
    decide +kernel
  · have new : ({ stopped with state := ⟨[.identifier], none, []⟩ } : Walker EventLog) =
        start ⟨[.identifier], none, []⟩ := congrArg (Walker.mk · _) left
    rw [new]
    refine (congrArg (List.map fun e : Event => e.chain.map Node.label) all).trans ?_
    decide +kernel

end Walker

end LexicalScope
