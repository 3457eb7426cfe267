import Verben.Conn.Linked
import Verben.Conn.Live

/-!
# One run of the timer

`server_cron` closes connections while it walks the list that they are taken out of. The walk
stays in step with the sequence of the connections (`cronWalk_refines`): it visits every one of
them, and the others are left in their order (`server_cron_sweeps`).
-/

namespace Verben

open Links

section Sequence

variable {p : ConnProc} {nodes : List Nat}

/-- With a timeout, the loop closes the idle connections. -/
theorem timedOut_iff {c : ClientConn} {cli : Nat} (timeout : 0 < p.clientTimeout)
    (live : p.heap cli = some c) :
    p.TimedOut c ↔ idleAt p.heap p.clientTimeout p.unixClock cli = true := by
  unfold ConnProc.TimedOut idleAt
  rw [live, Option.any_some, decide_eq_true_iff]
  exact and_iff_right (Int.ne_of_gt timeout)

/-- A connection is as idle as before when another one is closed. -/
theorem idleAt_update {heap : Nat → Option ClientConn} {timeout now : Int} {cli other : Nat}
    (ne : other ≠ cli) :
    idleAt (Function.update heap cli none) timeout now other = idleAt heap timeout now other := by
  unfold idleAt
  rw [Function.update_of_ne ne]

/-- The loop over some of the connections closes this one. -/
def ConnProc.Sweeps (p : ConnProc) (nodes : List Nat) (cli : Nat) : Prop :=
  cli ∈ nodes ∧ idleAt p.heap p.clientTimeout p.unixClock cli = true

instance (p : ConnProc) (nodes : List Nat) (cli : Nat) : Decidable (p.Sweeps nodes cli) :=
  inferInstanceAs (Decidable (_ ∧ _))

/-- What the loop over some of the connections leaves. -/
structure Swept (p p' : ConnProc) (nodes : List Nat) : Prop where
  clients : p'.clients = p.clients.filter fun cli => ¬ p.Sweeps nodes cli
  heap : ∀ cli, p'.heap cli = if p.Sweeps nodes cli then none else p.heap cli
  fdOpen : ∀ fd, p'.fdOpen fd = true ↔
    p.fdOpen fd = true ∧ ∀ cli c, p.Sweeps nodes cli → p.heap cli = some c → c.fd ≠ fd

theorem Swept.nil (p : ConnProc) : Swept p p [] := by
  have none' : ∀ cli, ¬ p.Sweeps [] cli := fun cli both => List.not_mem_nil both.1
  refine ⟨?_, fun cli => ?_, fun fd => ?_⟩
  · simp only [none', not_false_eq_true, decide_true, List.filter_true]
  · rw [if_neg (none' cli)]
  · simp only [none', false_implies, implies_true, and_true]

variable {p' : ConnProc} {node : Nat} {rest : List Nat} {o : ClientConn}

/-- The loop leaves a connection that is not idle. -/
theorem Swept.keep (swept : Swept p p' rest)
    (active : ¬ idleAt p.heap p.clientTimeout p.unixClock node = true) :
    Swept p p' (node :: rest) := by
  have same : ∀ cli, p.Sweeps rest cli ↔ p.Sweeps (node :: rest) cli := by
    intro cli
    refine and_congr_left fun idle => ?_
    rw [List.mem_cons]
    refine (or_iff_right ?_).symm
    rintro rfl
    exact active idle
  refine ⟨?_, fun cli => ?_, fun fd => ?_⟩
  · rw [swept.clients]
    exact List.filter_congr fun cli _ => decide_eq_decide.mpr (not_congr (same cli))
  · rw [swept.heap]
    exact if_congr (same cli) rfl rfl
  · rw [swept.fdOpen]
    simp only [same]

/-- The loop closes an idle connection, and goes on without it. -/
theorem Swept.close (swept : Swept (p.drop node o.fd) p' rest) (apart : node ∉ rest)
    (distinct : p.clients.Nodup) (live : p.heap node = some o)
    (idle : idleAt p.heap p.clientTimeout p.unixClock node = true) :
    Swept p p' (node :: rest) := by
  have here : p.Sweeps (node :: rest) node := ⟨List.mem_cons_self, idle⟩
  have others : ∀ {cli}, cli ≠ node →
      ((p.drop node o.fd).Sweeps rest cli ↔ p.Sweeps (node :: rest) cli) := by
    intro cli ne
    have same : idleAt (p.drop node o.fd).heap p.clientTimeout p.unixClock cli =
        idleAt p.heap p.clientTimeout p.unixClock cli := idleAt_update ne
    unfold ConnProc.Sweeps
    rw [List.mem_cons, or_iff_right ne]
    exact and_congr_right fun _ => same ▸ Iff.rfl
  have gone : ¬ (p.drop node o.fd).Sweeps rest node := fun both => apart both.1
  refine ⟨?_, fun cli => ?_, fun fd => ?_⟩
  · rw [swept.clients]
    change (p.clients.erase node).filter _ = _
    rw [distinct.erase_eq_filter, List.filter_filter]
    refine List.filter_congr fun cli _ => ?_
    by_cases same : cli = node
    case pos =>
      subst same
      simp [here]
    case neg => simp [same, others same]
  · rw [swept.heap]
    by_cases same : cli = node
    case pos =>
      subst same
      rw [if_neg gone, if_pos here]
      exact heap_drop_self p cli o.fd
    case neg =>
      rw [heap_drop_ne p o.fd same]
      exact if_congr (others same) rfl rfl
  · have shut : (p.drop node o.fd).fdOpen fd = true ↔ p.fdOpen fd = true ∧ o.fd ≠ fd := by
      change Function.update p.fdOpen o.fd false fd = true ↔ _
      by_cases same : fd = o.fd
      case pos => simp [same]
      case neg => simp [same, Ne.symm same]
    rw [swept.fdOpen, shut, and_assoc]
    refine and_congr_right fun _ => ?_
    constructor
    · rintro ⟨ne, rest'⟩ cli c sweeps there
      by_cases same : cli = node
      case pos =>
        subst same
        cases live.symm.trans there
        exact ne
      case neg =>
        exact rest' cli c ((others same).mpr sweeps) ((heap_drop_ne p o.fd same).trans there)
    · intro all
      refine ⟨all node o here live, ?_⟩
      intro cli c sweeps there
      have ne : cli ≠ node := by
        rintro rfl
        exact gone sweeps
      exact all cli c ((others ne).mp sweeps) ((heap_drop_ne p o.fd ne).symm.trans there)

/-- The loop over some of the connections, with a timeout. -/
theorem cronLoop_sweeps (timeout : 0 < p.clientTimeout) (distinct : p.clients.Nodup)
    (nodup : nodes.Nodup) (listed : ∀ cli ∈ nodes, cli ∈ p.clients ∧ ∃ c, p.heap cli = some c) :
    ∃ p', cronLoop p nodes = some (p',
        (nodes.filter (idleAt p.heap p.clientTimeout p.unixClock)).map .closed) ∧
      Swept p p' nodes := by
  induction nodes generalizing p with
  | nil => exact ⟨p, rfl, .nil p⟩
  | cons node rest ih =>
      obtain ⟨apart, nodup⟩ := List.nodup_cons.mp nodup
      obtain ⟨mem, o, live⟩ := listed node List.mem_cons_self
      unfold cronLoop
      rw [live, Option.bind_some]
      by_cases idle : p.TimedOut o
      case pos =>
        have idle' := (timedOut_iff timeout live).mp idle
        have others : ∀ cli ∈ rest, cli ∈ (p.drop node o.fd).clients ∧
            ∃ c, (p.drop node o.fd).heap cli = some c := by
          intro cli later
          have ne : cli ≠ node := by
            rintro rfl
            exact apart later
          obtain ⟨mem', there⟩ := listed cli (List.mem_cons_of_mem _ later)
          rw [heap_drop_ne p o.fd ne]
          exact ⟨(List.mem_erase_of_ne ne).mpr mem', there⟩
        obtain ⟨p', looped, swept⟩ := ih (p := p.drop node o.fd) timeout (distinct.erase node)
          nodup others
        have same : rest.filter (idleAt (p.drop node o.fd).heap p.clientTimeout p.unixClock) =
            rest.filter (idleAt p.heap p.clientTimeout p.unixClock) := by
          refine List.filter_congr fun cli later => idleAt_update ?_
          rintro rfl
          exact apart later
        refine ⟨p', ?_, swept.close apart distinct live idle'⟩
        have closed : closeClient p node = some (p.drop node o.fd, [.closed node]) := by
          unfold closeClient
          rw [live, Option.bind_some, if_pos mem]
        rw [if_pos idle, closed, Option.bind_some, looped, List.filter_cons_of_pos idle',
          List.map_cons, ← same]
        rfl
      case neg =>
        have active := mt (timedOut_iff timeout live).mpr idle
        obtain ⟨p', looped, swept⟩ := ih timeout distinct nodup fun cli later =>
          listed cli (List.mem_cons_of_mem _ later)
        refine ⟨p', ?_, swept.keep active⟩
        rw [if_neg idle, looped, List.filter_cons_of_neg active]

end Sequence

section Walk

variable {s : LinkedProc} {rest : List (Nat × Nat)} {cli : Nat}

/-- The events of the nodes behind a connection that was closed. -/
theorem flatMap_cronEvents_drop (later : cli ∉ rest.map Prod.snd) (dl : Dlist Nat) (fd : Nat) :
    (rest.map Prod.snd).flatMap
        (cronEvents (idleAt (s.drop dl cli fd).heap s.clientTimeout s.unixClock)) =
      (rest.map Prod.snd).flatMap
        (cronEvents (idleAt s.heap s.clientTimeout s.unixClock)) := by
  refine List.flatMap_congr fun other mem => ?_
  have ne : other ≠ cli := by
    rintro rfl
    exact later mem
  have same : idleAt (s.drop dl cli fd).heap s.clientTimeout s.unixClock other =
      idleAt s.heap s.clientTimeout s.unixClock other := idleAt_update ne
  unfold cronEvents
  rw [same]

/-- The walk visits the nodes from the iterator on, and does on the sequence of connections what
the loop does there. -/
theorem cronWalk_refines (kept : List (Nat × Nat)) (timeout : 0 < s.clientTimeout)
    (listed : s.clients.Entries (kept ++ rest))
    (distinct : ((kept ++ rest).map Prod.snd).Nodup)
    (live : ∀ cli ∈ rest.map Prod.snd, ∃ c, s.heap cli = some c) :
    ∃ s' remaining, s'.clients.Entries remaining ∧
      (∃ closes, cronLoop (s.toConn ((kept ++ rest).map Prod.snd)) (rest.map Prod.snd) =
        some (s'.toConn (remaining.map Prod.snd), closes)) ∧
      ∀ fuel budget, rest.length < fuel → (kept ++ rest).length ≤ budget →
        cronWalk budget fuel s ⟨first rest, .head⟩ =
          some (s', (rest.map Prod.snd).flatMap
            (cronEvents (idleAt s.heap s.clientTimeout s.unixClock))) := by
  induction rest generalizing s kept with
  | nil =>
      refine ⟨s, kept, by rwa [List.append_nil] at listed, ⟨[], by rw [List.append_nil]; rfl⟩, ?_⟩
      intro fuel budget enough _
      cases fuel with
      | zero => exact absurd enough (Nat.not_lt_zero _)
      | succ fuel => rfl
  | cons entry rest ih =>
      rcases entry with ⟨addr, cli⟩
      obtain ⟨o, there⟩ := live cli List.mem_cons_self
      have there' : (s.toConn ((kept ++ (addr, cli) :: rest).map Prod.snd)).heap cli = some o :=
        there
      have ⟨other, later⟩ : cli ∉ kept.map Prod.snd ∧ cli ∉ rest.map Prod.snd := by
        rw [List.map_append, List.map_cons, List.nodup_append', List.nodup_cons,
          List.disjoint_cons_right] at distinct
        exact ⟨distinct.2.2.1, distinct.2.1.1⟩
      have idle_iff : idleAt s.heap s.clientTimeout s.unixClock cli = true ↔
          s.clientTimeout ≠ 0 ∧ s.clientTimeout < s.unixClock - o.accessTime :=
        (timedOut_iff timeout there').symm
      by_cases idle : s.clientTimeout ≠ 0 ∧ s.clientTimeout < s.unixClock - o.accessTime
      case pos =>
        obtain ⟨dl, listed', closed⟩ := s.closeClient_eq listed other there
        have distinct' : ((kept ++ rest).map Prod.snd).Nodup := by
          refine distinct.sublist (List.Sublist.map _ ?_)
          exact List.Sublist.append_left (List.sublist_cons_self _ _) kept
        have live' : ∀ cli' ∈ rest.map Prod.snd, ∃ c, (s.drop dl cli o.fd).heap cli' = some c := by
          intro cli' mem
          obtain ⟨c, live⟩ := live cli' (List.mem_cons_of_mem _ mem)
          have ne : cli' ≠ cli := by
            rintro rfl
            exact later mem
          exact ⟨c, (Function.update_of_ne ne _ _).trans live⟩
        obtain ⟨s', remaining, left, ⟨closes, looped⟩, walked⟩ :=
          ih (s := s.drop dl cli o.fd) _ timeout listed' distinct' live'
        refine ⟨s', remaining, left, ⟨.closed cli :: closes, ?_⟩, ?_⟩
        · have timedOut : (s.toConn ((kept ++ (addr, cli) :: rest).map Prod.snd)).TimedOut o := idle
          rw [List.map_cons, cronLoop, there', Option.bind_some, if_pos timedOut,
            closeClient_toConn other there dl, Option.bind_some, looped]
          rfl
        · intro fuel budget enough room
          rw [List.length_append, List.length_cons] at room
          cases fuel with
          | zero => exact absurd enough (Nat.not_lt_zero _)
          | succ fuel =>
              have walked' := (walked fuel budget (Nat.lt_of_succ_lt_succ enough)
                (by rw [List.length_append]; omega)).trans
                  (congrArg (fun events => some (s', events))
                    (flatMap_cronEvents_drop later dl o.fd))
              rw [cronWalk_cons listed there, if_pos idle, closed budget (by omega),
                Option.bind_some, walked', List.map_cons, List.flatMap_cons, cronEvents,
                if_pos (idle_iff.mpr idle)]
              rfl
      case neg =>
        have grown : kept ++ (addr, cli) :: rest = (kept ++ [(addr, cli)]) ++ rest := by
          rw [List.append_assoc]
          rfl
        obtain ⟨s', remaining, left, ⟨closes, looped⟩, walked⟩ :=
          ih (kept ++ [(addr, cli)]) timeout (grown ▸ listed) (grown ▸ distinct)
            fun cli' mem => live cli' (List.mem_cons_of_mem _ mem)
        refine ⟨s', remaining, left, ⟨closes, ?_⟩, ?_⟩
        · have inTime : ¬ (s.toConn ((kept ++ (addr, cli) :: rest).map Prod.snd)).TimedOut o :=
            idle
          rw [List.map_cons, cronLoop, there', Option.bind_some, if_neg inTime, grown]
          exact looped
        · intro fuel budget enough room
          cases fuel with
          | zero => exact absurd enough (Nat.not_lt_zero _)
          | succ fuel =>
              rw [cronWalk_cons listed there, if_neg idle,
                walked fuel budget (Nat.lt_of_succ_lt_succ enough) (grown ▸ room)]
              rw [List.map_cons, List.flatMap_cons, cronEvents, if_neg (mt idle_iff.mp idle)]
              rfl

end Walk

/-- The list of the process holds these connections, all of them open and different. -/
structure LinkedProc.OpenConns (s : LinkedProc) (clis : List Nat) : Prop where
  listed : s.clients.Holds clis
  distinct : clis.Nodup
  live : ∀ cli ∈ clis, ∃ c, s.heap cli = some c ∧ s.fdOpen c.fd = true
  fds : ∀ cli ∈ clis, ∀ other ∈ clis, ∀ c o,
    s.heap cli = some c → s.heap other = some o → c.fd = o.fd → cli = other

section Timer

variable {s s' : LinkedProc} {clis : List Nat} {now : Int}

/-- The timer on the list in memory is the timer on the sequence of the connections. -/
theorem serverCron_refines (conns : s.OpenConns clis) (timeout : 0 < s.clientTimeout)
    (now : Int) :
    ∃ s' remaining, s'.clients.Holds remaining ∧
      (∃ closes, Verben.serverCron (s.toConn clis) now = some (s'.toConn remaining, closes)) ∧
      ∀ fuel, clis.length < fuel → s.serverCron fuel now =
        some (s', clis.flatMap (cronEvents (idleAt s.heap s.clientTimeout now))) := by
  obtain ⟨entries, listed, rfl⟩ := conns.listed
  have live : ∀ cli ∈ entries.map Prod.snd, ∃ c, s.heap cli = some c := by
    intro cli mem
    obtain ⟨c, there, _⟩ := conns.live cli mem
    exact ⟨c, there⟩
  obtain ⟨s', remaining, left, looped, walked⟩ :=
    cronWalk_refines (s := { s with unixClock := now }) [] timeout listed
      conns.distinct live
  refine ⟨s', remaining.map Prod.snd, ⟨remaining, left, rfl⟩, looped, ?_⟩
  intro fuel enough
  rw [List.length_map] at enough
  have start : dlistRewind s.clients = ⟨first entries, .head⟩ := by
    unfold dlistRewind
    rw [listed.links.here_eq]
  unfold LinkedProc.serverCron
  rw [start]
  exact walked fuel fuel enough (Nat.le_of_lt enough)

/-- The connections of the list after a run, and which of them are still there. -/
theorem LinkedProc.OpenConns.swept {remaining : List Nat} (conns : s.OpenConns clis)
    (swept : Swept { s.toConn clis with unixClock := now } (s'.toConn remaining) clis) :
    remaining = (clis.filter fun cli => ¬ idleAt s.heap s.clientTimeout now cli) ∧
      ∀ cli ∈ clis, ∀ c, s.heap cli = some c →
        if s.clientTimeout < now - c.accessTime then
          s'.heap cli = none ∧ s'.fdOpen c.fd = false
        else
          s'.heap cli = some c ∧ s'.fdOpen c.fd = true := by
  have sweeps_iff : ∀ cli ∈ clis,
      (ConnProc.Sweeps { s.toConn clis with unixClock := now } clis cli ↔
        idleAt s.heap s.clientTimeout now cli = true) := fun cli mem => and_iff_right mem
  have idle_iff : ∀ cli c, s.heap cli = some c →
      (idleAt s.heap s.clientTimeout now cli = true ↔ s.clientTimeout < now - c.accessTime) := by
    intro cli c there
    unfold idleAt
    rw [there, Option.any_some, decide_eq_true_iff]
  refine ⟨?_, ?_⟩
  · refine swept.clients.trans (List.filter_congr fun cli mem => ?_)
    exact decide_eq_decide.mpr (not_congr (sweeps_iff cli mem))
  · intro cli mem c there
    have heap : s'.heap cli = _ := swept.heap cli
    split
    case isTrue idle =>
      have gone := (sweeps_iff cli mem).mpr ((idle_iff cli c there).mpr idle)
      refine ⟨heap.trans (if_pos gone), ?_⟩
      rw [← Bool.not_eq_true]
      intro isOpen
      exact ((swept.fdOpen c.fd).mp isOpen).2 cli c gone there rfl
    case isFalse active =>
      have kept := mt ((sweeps_iff cli mem).trans (idle_iff cli c there)).mp active
      refine ⟨(heap.trans (if_neg kept)).trans there, (swept.fdOpen c.fd).mpr ⟨?_, ?_⟩⟩
      · obtain ⟨o, there', isOpen⟩ := conns.live cli mem
        cases there.symm.trans there'
        exact isOpen
      · intro other o gone there' same
        cases conns.fds cli mem other gone.1 c o there there' same.symm
        exact kept gone

/-- **One run of `server_cron`.** With a timeout, it visits every connection of the list once,
in the order of the list, and closes those that have been idle for longer; the list then holds
the others in their order, and they are open as before. -/
theorem server_cron_sweeps (conns : s.OpenConns clis) (timeout : 0 < s.clientTimeout)
    (now : Int) :
    ∃ s', (∀ fuel, clis.length < fuel → s.serverCron fuel now =
        some (s', clis.flatMap (cronEvents (idleAt s.heap s.clientTimeout now)))) ∧
      s'.OpenConns (clis.filter fun cli => ¬ idleAt s.heap s.clientTimeout now cli) ∧
      ∀ cli ∈ clis, ∀ c, s.heap cli = some c →
        if s.clientTimeout < now - c.accessTime then
          s'.heap cli = none ∧ s'.fdOpen c.fd = false
        else
          s'.heap cli = some c ∧ s'.fdOpen c.fd = true := by
  obtain ⟨s', remaining, left, ⟨closes, looped⟩, ran⟩ := serverCron_refines conns timeout now
  have listed : ∀ cli ∈ clis, cli ∈ clis ∧ ∃ c, s.heap cli = some c := by
    intro cli mem
    obtain ⟨c, there, _⟩ := conns.live cli mem
    exact ⟨mem, c, there⟩
  obtain ⟨p', looped', swept⟩ := cronLoop_sweeps (p := { s.toConn clis with unixClock := now })
    timeout conns.distinct conns.distinct listed
  cases Option.some.inj (looped'.symm.trans looped)
  obtain ⟨rfl, each⟩ := conns.swept swept
  have kept : ∀ cli ∈ clis.filter fun cli => ¬ idleAt s.heap s.clientTimeout now cli,
      cli ∈ clis ∧ ∃ c, s.heap cli = some c ∧ s'.heap cli = some c ∧ s'.fdOpen c.fd = true := by
    intro cli mem
    obtain ⟨mem, active⟩ := List.mem_filter.mp mem
    obtain ⟨c, there, _⟩ := conns.live cli mem
    have inTime : ¬ s.clientTimeout < now - c.accessTime := by
      unfold idleAt at active
      simpa [there] using active
    have same := each cli mem c there
    rw [if_neg inTime] at same
    exact ⟨mem, c, there, same⟩
  refine ⟨s', ran, ⟨left, conns.distinct.filter _, ?_, ?_⟩, each⟩
  · intro cli mem
    obtain ⟨_, c, _, there, isOpen⟩ := kept cli mem
    exact ⟨c, there, isOpen⟩
  · intro cli mem other mem' c o there there' same
    obtain ⟨listed₁, c', before₁, after₁, _⟩ := kept cli mem
    obtain ⟨listed₂, o', before₂, after₂, _⟩ := kept other mem'
    cases there.symm.trans after₁
    cases there'.symm.trans after₂
    exact conns.fds cli listed₁ other listed₂ c o before₁ before₂ same

end Timer

/-- Three connections, used last after 20, 40 and 60 seconds; the timeout is a minute. -/
def threeConns : LinkedProc where
  heap := fun cli => if 1 ≤ cli ∧ cli ≤ 3 then
    some {
      magic := connMagicDebug
      fd := 6 + cli
      closeConn := false
      remoteIp := "10.0.0.1"
      remotePort := 5000 + cli
      recvProtLen := 0
      sendbuf := sdsempty
      recvbuf := sdsempty
      accessTime := 20 * cli }
    else none
  clients := {
    nodes := fun addr => match addr with
      | 11 => some ⟨none, some 12, 1⟩
      | 12 => some ⟨some 11, some 13, 2⟩
      | 13 => some ⟨some 12, none, 3⟩
      | _ => none
    head := some 11
    tail := some 13
    len := 3 }
  connVec := fun fd => if 7 ≤ fd ∧ fd ≤ 9 then fd - 6 else 0
  ael := ⟨9, fun _ => ⟨aeNone, none, none, none⟩⟩
  fdOpen := fun fd => 7 ≤ fd ∧ fd ≤ 9
  clientLimit := 0
  clientTimeout := 60
  unixClock := 109
  connPid := 4321
  identifier := 0

theorem threeConns_openConns : threeConns.OpenConns [1, 2, 3] where
  listed := ⟨[(11, 1), (12, 2), (13, 3)],
    ⟨by decide, ⟨rfl, _, rfl, rfl, _, rfl, rfl, _, rfl, rfl, rfl⟩, rfl⟩, rfl⟩
  distinct := by decide
  live := by
    intro cli mem
    have range : 1 ≤ cli ∧ cli ≤ 3 := by
      simp only [List.mem_cons, List.not_mem_nil, or_false] at mem
      omega
    refine ⟨_, if_pos range, ?_⟩
    simp only [threeConns, decide_eq_true_iff]
    omega
  fds := by
    intro cli _ other _ c o there there' same
    simp only [threeConns, Option.ite_none_right_eq_some, Option.some.injEq] at there there'
    obtain ⟨_, rfl⟩ := there
    obtain ⟨_, rfl⟩ := there'
    exact Nat.add_left_cancel same

/-- After 110 seconds the first two of them are closed, which the walk comes to one after the
other at the head of the list. -/
theorem server_cron_sweeps_three :
    ∃ s', (∀ fuel, 3 < fuel → threeConns.serverCron fuel 110 =
        some (s', [.visited 1, .closed 1, .visited 2, .closed 2, .visited 3])) ∧
      s'.OpenConns [3] := by
  obtain ⟨s', ran, left, _⟩ := server_cron_sweeps threeConns_openConns (by decide) 110
  exact ⟨s', ran, left⟩

end Verben
