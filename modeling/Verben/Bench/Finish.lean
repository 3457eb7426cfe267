import Verben.Bench.Account

/-!
# The benchmark comes to its end

In every run of the benchmark its clients are used while they are there, its counters say what
they are named for, and its end frees all there is (`bench_sound`). Where the kernel and the
server are fair, all requests are answered in the end (`bench_finishes`).
-/

namespace Verben

open CInt Transition

variable {b b' : Bench} {content : List UInt8} {heard : Bool} {clients requests lost : Nat}
  {cli : Nat} {c : BenchClient} {w w' : Nat → Nat → Nat}

/-! ## Sums over the clients -/

theorem Bench.total_le {k : Nat} (less : ∀ m r, w m r ≤ k * w' m r) :
    b.total w ≤ k * b.total w' := by
  unfold Bench.total
  induction b.clients with
  | nil => exact Nat.zero_le _
  | cons cli rest ih =>
      rw [List.map_cons, List.sum_cons, List.map_cons, List.sum_cons, Nat.mul_add]
      refine Nat.add_le_add ?_ ih
      unfold Bench.share
      cases b.heap cli with
      | none => exact Nat.zero_le _
      | some c => exact less c.written c.read

theorem Bench.started_le (b : Bench) : b.total startedEach ≤ b.total clientEach := by
  have less : b.total startedEach ≤ 1 * b.total clientEach := b.total_le fun m r => by
    unfold startedEach clientEach
    split <;> omega
  rwa [Nat.one_mul] at less

theorem Bench.spare_le (b : Bench) (some' : 1 ≤ clients) :
    b.total (spareEach clients) ≤ clients * b.total clientEach :=
  b.total_le fun m r => by
    unfold spareEach clientEach
    split <;> omega

theorem Bench.Wf.total_one (wf : b.Wf content heard) : b.total clientEach = b.clients.length := by
  have one : b.clients.map (b.share clientEach) = b.clients.map fun _ => 1 := by
    refine List.map_congr_left fun cli mem => ?_
    obtain ⟨c, live⟩ := (wf.listed cli).mp mem
    exact Bench.share_of_live live
  rw [Bench.total, one, List.map_const', List.sum_replicate_nat, Nat.mul_one]

/-! ## Runs -/

/-- What every state of a run has. -/
structure Bench.Inv (content : List UInt8) (heard : Bool) (clients requests lost : Nat)
    (b : Bench) : Prop where
  wf : b.Wf content heard
  counted : Counted content.length clients requests lost b.tally b.total

theorem Bench.Inv.fire (sensible : Sensible content.length clients requests)
    (inv : b.Inv content heard clients requests lost) (act : BenchAct)
    (fair : heard = true → b.Fair act) :
    Ends (b.fire act) fun b' =>
      BenchFate content.length heard act b.tally b'.tally b.total b'.total ∧
      ∃ lost', b'.Inv content heard clients requests lost' ∧ (¬ act.Fails → lost' = lost) := by
  obtain ⟨wf, counted⟩ := inv
  have one := wf.total_one
  have live := counted.live
  have num := counted.num
  have few := counted.few
  have small := sensible.few
  refine (wf.fire_ends sensible.nonempty sensible.short (fun some' => ?_) (by omega) (by omega) act
    fair).mono ?_
  · have := List.length_pos_iff.mpr some'
    omega
  · rintro b' ⟨wf', fate⟩
    obtain ⟨lost', counted', same⟩ := counted.step sensible fate b.started_le
      (b'.spare_le sensible.client)
    exact ⟨fate, lost', ⟨wf', counted'⟩, same⟩

theorem Bench.wf_init (clients requests : Int) (keepAlive : Bool) (fdOpen : Nat → Bool) :
    (Bench.init clients requests keepAlive fdOpen).Wf content heard where
  nodup := List.nodup_nil
  listed := by
    intro cli
    constructor
    · intro mem
      cases mem
    · rintro ⟨c, ⟨⟩⟩
  apart := nofun
  isOpen := nofun
  fits := nofun
  quiet := fun _ _ => rfl

theorem Bench.start_ends (sensible : Sensible content.length clients requests) (keepAlive : Bool)
    (fdOpen : Nat → Bool) {answer : Option ConnectAnswer} {answers : List (Option ConnectAnswer)}
    (room : heard = true → Room answer ∧ ∀ answer ∈ answers, Room answer) :
    Ends ((Bench.init clients requests keepAlive fdOpen).start content answer answers)
      fun b => b.Inv content heard clients requests 0 ∧ b.tally.issued = 0 ∧
        ∀ w, b.total w = clients * w 0 0 := by
  have few := sensible.few
  obtain ⟨client, request, small, nonempty, short⟩ := sensible
  unfold Bench.start
  refine (createBenchClient_ends (Bench.wf_init clients requests keepAlive fdOpen) nonempty
    fun hears => (room hears).1).bind ?_
  rintro b₁ ⟨wf₁, tally₁, total₁, ⟨cli, listed, c, live, obuf⟩, -⟩
  have tally₁ : b₁.tally = ⟨clients, 1, requests, 0, 0, keepAlive, false⟩ := by
    rw [tally₁]
    rfl
  have last : b₁.clients.getLast? = some cli := by
    rw [listed]
    rfl
  rw [last]
  refine (createMissingClients_ends wf₁ nonempty live (by rw [tally₁]; exact Int.one_nonneg)
    (by rw [tally₁]; dsimp only; omega) fun hears => (room hears).2).mono ?_
  rintro b ⟨wf, tally, total, -⟩
  have total : ∀ w, b.total w = clients * w 0 0 := by
    intro w
    have count : (max b₁.tally.live b₁.tally.num - b₁.tally.live).toNat = clients - 1 := by
      rw [tally₁]
      dsimp only
      omega
    have none : (Bench.init clients requests keepAlive fdOpen).total w = 0 := rfl
    rw [total, total₁, none, count, Nat.zero_add, Nat.add_comm, ← Nat.succ_mul]
    congr 1
    omega
  rw [tally₁] at tally
  have one : b.total clientEach = clients := (total clientEach).trans (Nat.mul_one clients)
  have started : b.total startedEach = 0 := total startedEach
  have none : b.total (answeredEach content.length) = 0 := by
    rw [total, answeredEach_of_ne (Nat.ne_of_lt nonempty), Nat.mul_zero]
  refine ⟨⟨wf, ?_⟩, congrArg Tally.issued tally, total⟩
  rw [tally]
  refine ⟨rfl, rfl, ?_, Nat.le_of_eq one, Int.le_refl 0, Int.le_refl 0, ?_, ?_, ?_, none,
    fun _ _ _ => one⟩
  · dsimp only
    omega
  · dsimp only
    omega
  · constructor
    · nofun
    · intro none
      dsimp only at none
      omega
  · exact .inl (Int.natCast_nonneg requests)

theorem Bench.inv_of_started (sensible : Sensible content.length clients requests)
    {keepAlive : Bool} {fdOpen : Nat → Bool} {answer : Option ConnectAnswer}
    {answers : List (Option ConnectAnswer)}
    (room : heard = true → Room answer ∧ ∀ answer ∈ answers, Room answer)
    (started : (Bench.init clients requests keepAlive fdOpen).start content answer answers =
      .ok b) :
    b.Inv content heard clients requests 0 ∧ b.tally.issued = 0 ∧
      ∀ w, b.total w = clients * w 0 0 := by
  have ends := Bench.start_ends sensible keepAlive fdOpen room
  rw [started] at ends
  exact ends

theorem Bench.Inv.step (sensible : Sensible content.length clients requests)
    (inv : b.Inv content heard clients requests lost) {act : BenchAct}
    (fair : heard = true → b.Fair act) (stepped : b.step act = some b') :
    BenchFate content.length heard act b.tally b'.tally b.total b'.total ∧
      ∃ lost', b'.Inv content heard clients requests lost' ∧ (¬ act.Fails → lost' = lost) := by
  have ends := inv.fire sensible act fair
  unfold Bench.step at stepped
  cases fired : b.fire act with
  | error stop =>
      rw [fired] at stepped
      cases stepped
  | ok b₁ =>
      rw [fired] at stepped ends
      cases stepped
      exact ends

/-! ## The end -/

/-- `free_all_clients` comes to the end of the list, and frees and closes all there is. -/
theorem freeAllLoop_of_wf (wf : b.Wf content heard) (live : b.liveClients = b.clients.length)
    (few : b.clients.length < 2 ^ 31) :
    ∃ b', freeAllLoop b b.clients = .ok b' ∧ b'.liveClients = 0 ∧ (∀ cli, b'.heap cli = none) ∧
      ∀ fd, b'.fdOpen fd = true →
        b.fdOpen fd = true ∧ ∀ cli c, b.heap cli = some c → c.fd ≠ fd := by
  generalize nodes : b.clients = list at live few
  induction list generalizing b with
  | nil =>
      have gone : ∀ cli, b.heap cli = none := by
        intro cli
        by_contra there
        obtain ⟨c, here⟩ := Option.ne_none_iff_exists'.mp there
        have mem := (wf.listed cli).mpr ⟨c, here⟩
        rw [nodes] at mem
        cases mem
      refine ⟨b, rfl, live, gone, fun fd isOpen => ⟨isOpen, fun cli c here => ?_⟩⟩
      rw [gone cli] at here
      cases here
  | cons cli rest ih =>
      obtain ⟨c, here⟩ := (wf.listed cli).mp (by rw [nodes]; exact List.mem_cons_self)
      obtain ⟨b₁, freed, drops, tally⟩ := freeBenchClient_of_live wf here
      have left : b₁.clients = rest := by
        rw [drops.clients, nodes]
        exact List.erase_cons_head cli rest
      rw [List.length_cons] at live few
      have live₁ : b₁.liveClients = rest.length := by
        have count : b₁.liveClients = toInt32 (b.liveClients - 1) := congrArg Tally.live tally
        rw [count, live, toInt32_of_range (by omega) (by omega)]
        omega
      obtain ⟨b', looped, none, gone, shut⟩ := ih (wf.drop drops) left live₁ (by omega)
      refine ⟨b', ?_, none, gone, fun fd isOpen => ?_⟩
      · unfold freeAllLoop
        rw [freed]
        exact looped
      · obtain ⟨isOpen, others⟩ := shut fd isOpen
        rw [drops.fdOpen] at isOpen
        have ne : fd ≠ c.fd := by
          rintro rfl
          rw [Function.update_self] at isOpen
          cases isOpen
        rw [Function.update_of_ne ne] at isOpen
        refine ⟨isOpen, fun other d there => ?_⟩
        by_cases same : other = cli
        · subst same
          rw [here] at there
          cases there
          exact ne.symm
        · exact others other d (by rw [drops.heap, Function.update_of_ne same, there])

/-- What holds in every state of a run: no event of a client leads to a freed client or a failed
`assert`; `live_clients` counts the clients; requests that are finished or under way were issued,
and are no more than `requests`; `quit` is set when the last one is finished; and
`free_all_clients` would leave no client in memory and none of their descriptors open. -/
structure Bench.Sound (clients requests : Nat) (b : Bench) : Prop where
  safe : ∀ act, b.fire act ≠ .error .broken
  live : b.liveClients = b.clients.length
  few : b.clients.length ≤ clients
  finished : 0 ≤ b.requestsFinished ∧
    b.requestsFinished + b.total startedEach ≤ min b.requestsIssued requests
  quit : b.quit = true ↔ b.requestsFinished = requests
  frees : ∃ b', freeAllClients b = .ok b' ∧ b'.liveClients = 0 ∧ (∀ cli, b'.heap cli = none) ∧
    ∀ cli c, b.heap cli = some c → b'.fdOpen c.fd = false

theorem Bench.Inv.sound (sensible : Sensible content.length clients requests)
    (inv : b.Inv content false clients requests lost) : b.Sound clients requests := by
  have ⟨wf, counted⟩ := inv
  have one := wf.total_one
  have live : b.liveClients = b.clients.length := one ▸ counted.live
  have few : b.clients.length ≤ clients := one ▸ counted.few
  have small := sensible.few
  refine ⟨fun act broken => ?_, live, few, ⟨counted.finished, ?_⟩, counted.quit, ?_⟩
  · have ends := inv.fire sensible act nofun
    rw [broken] at ends
    exact ends rfl
  · have account := counted.account
    change b.requestsFinished + _ + _ = min b.requestsIssued _ at account
    omega
  · obtain ⟨b', freed, none, gone, shut⟩ := freeAllLoop_of_wf wf live (by omega)
    refine ⟨b', freed, none, gone, fun cli c here => ?_⟩
    by_contra isOpen
    exact (shut c.fd (Bool.not_eq_false _ ▸ isOpen)).2 cli c here rfl

/-- In every run of the benchmark, whatever the kernel and the server answer. -/
theorem bench_sound (sensible : Sensible content.length clients requests) {keepAlive : Bool}
    {fdOpen : Nat → Bool} {answer : Option ConnectAnswer} {answers : List (Option ConnectAnswer)}
    {b₀ : Bench}
    (started : (Bench.init clients requests keepAlive fdOpen).start content answer answers = .ok b₀)
    {acts : List BenchAct} (ran : run Bench.step b₀ acts = some b) : b.Sound clients requests := by
  obtain ⟨init, -⟩ : b₀.Inv content false clients requests 0 ∧ _ ∧ _ :=
    Bench.inv_of_started sensible nofun started
  have inv : ∃ lost, b.Inv content false clients requests lost := by
    apply (reach_of_run ran).invariant (P := fun b : Bench => ∃ lost, b.Inv _ _ _ _ lost) ⟨0, init⟩
    rintro b act b' ⟨lost, inv⟩ - stepped
    obtain ⟨-, lost', inv', -⟩ := inv.step sensible nofun stepped
    exact ⟨lost', inv'⟩
  obtain ⟨lost, inv⟩ := inv
  exact inv.sound sensible

theorem ok_of_toOption {r : BenchResult} (ok : r.toOption = some b) : r = .ok b := by
  cases r with
  | ok b' => exact congrArg Except.ok (Option.some.inj ok)
  | error stop => cases ok

/-- A client is connected, its request is sent byte by byte, and the benchmark ends. -/
def oneByteActs : List BenchAct :=
  [.writable 5 (.wrote 1) true, .writable 5 (.wrote 1) true, .readable 5 .again ⟨[], true⟩,
    .readable 5 (.data 2) ⟨[], true⟩]

theorem bench_sound_one : ∃ b₀ b,
    (Bench.init 1 1 true fun _ => false).start [104, 105] (some ⟨5, 1, true⟩) [] = .ok b₀ ∧
      run Bench.step b₀ oneByteActs = some b ∧ b.quit = true ∧ b.Sound 1 1 := by
  have ends : (((Bench.init 1 1 true fun _ => false).start [104, 105] (some ⟨5, 1, true⟩)
      []).toOption.bind fun b₀ => run Bench.step b₀ oneByteActs).any (fun b => b.quit) = true := by
    decide +kernel
  obtain ⟨b, ran, quit⟩ := (Option.any_eq_true ..).mp ends
  obtain ⟨b₀, started, ran⟩ := Option.bind_eq_some_iff.mp ran
  have started := ok_of_toOption started
  exact ⟨b₀, b, started, ran, quit,
    bench_sound ⟨by decide, by decide, by decide, by decide, by decide⟩ started ran⟩

/-! ## Fair runs -/

/-- The steps that a client may still take for its request. -/
def effortEach (len clients : Nat) : Nat → Nat → Nat :=
  fun m r => if m = 0 then 1 else 1 + clients + (len - m) + (len - r)

theorem effortEach_zero {len : Nat} (r : Nat) : effortEach len clients 0 r = 1 := rfl

theorem effortEach_of_pos {len m : Nat} (positive : 0 < m) (r : Nat) :
    effortEach len clients m r = 1 + clients + (len - m) + (len - r) :=
  if_neg (Nat.pos_iff_ne_zero.mp positive)

/-- The steps that are left: those for requests to be issued, and those of the clients. -/
def stepsLeft (len clients requests : Nat) (t : Tally) (sum : (Nat → Nat → Nat) → Nat) : Nat :=
  (requests - t.issued).toNat * (2 * len + clients + 1) + sum (effortEach len clients)

instance (act : BenchAct) : Decidable act.Idle :=
  match act with
  | .readable _ .again _ => isTrue trivial
  | .readable _ (.data _) _ => isFalse id
  | .readable _ .ended _ => isFalse id
  | .writable .. => isFalse id

/-- Every step that is not idle is one of those. -/
theorem BenchFate.stepsLeft_le {len : Nat} {act : BenchAct} {t t' : Tally}
    {sum sum' : (Nat → Nat → Nat) → Nat} (sensible : Sensible len clients requests)
    (counted : Counted len clients requests lost t sum)
    (fate : BenchFate len true act t t' sum sum')
    (most : sum startedEach ≤ sum clientEach) (fair : ¬ act.Fails) :
    stepsLeft len clients requests t' sum' + (if act.Idle then 0 else 1) ≤
      stepsLeft len clients requests t sum := by
  have positive := sensible.nonempty
  have client := sensible.client
  have one : (if act.Idle then 0 else 1) ≤ 1 := by split <;> omega
  have all := counted.all
  unfold stepsLeft
  cases fate with
  | idle again tally total =>
      rw [tally, total, if_pos again]
      exact Nat.le_refl _
  | spare r enough tally total =>
      have spare := total (spareEach clients)
      have effort := total (effortEach len clients)
      rw [spareEach_zero] at spare
      rw [effortEach_zero] at effort
      have next := counted.next_issued sensible (by omega)
      have issued : t'.issued = t.issued + 1 := by
        rw [tally]
        exact next
      have before : (requests - t.issued).toNat = 0 := by omega
      have after : (requests - t'.issued).toNat = 0 := by omega
      rw [before, after]
      omega
  | lost m r fails more tally total => exact absurd fails fair
  | sent m r n more some' fits tally total =>
      have effort := total (effortEach len clients)
      have next := counted.issue_issued sensible more
      have sent : 0 < m + n := by omega
      rw [← tally] at next
      rw [effortEach_of_pos sent] at effort
      rcases Nat.eq_zero_or_pos m with rfl | before
      · rw [effortEach_zero] at effort
        rw [if_pos rfl] at next
        have less := more rfl
        have count : (requests - t.issued).toNat = (requests - t'.issued).toNat + 1 := by omega
        have split : ((requests - t'.issued).toNat + 1) * (2 * len + clients + 1) =
            (requests - t'.issued).toNat * (2 * len + clients + 1) + (2 * len + clients + 1) :=
          Nat.succ_mul _ _
        rw [count, split]
        omega
      · rw [effortEach_of_pos before] at effort
        rw [if_neg (Nat.pos_iff_ne_zero.mp before), Int.add_zero] at next
        rw [next]
        omega
  | got r r' more less tally total =>
      have effort := total (effortEach len clients)
      rw [effortEach_of_pos positive, effortEach_of_pos positive] at effort
      have := less rfl
      rw [tally]
      omega
  | done r done =>
      cases done with
      | last enough tally total =>
          have effort := total (effortEach len clients)
          rw [effortEach_of_pos positive] at effort
          rw [tally]
          dsimp only
          omega
      | reset more tally total =>
          have effort := total (effortEach len clients)
          rw [effortEach_of_pos positive, effortEach_zero] at effort
          rw [tally]
          dsimp only
          omega
      | renewed more tally total =>
          have effort := total (effortEach len clients)
          rw [effortEach_of_pos positive, effortEach_zero, Nat.mul_one] at effort
          have num := counted.num
          have live := counted.live
          have few := counted.few
          have under := (DoneFate.renewed more tally total).under positive
          have new : (t.num - t.live + 1).toNat ≤ clients := by omega
          change _ = _ + (t.num - t.live + 1).toNat at effort
          rw [tally]
          dsimp only
          omega

theorem Bench.Fair.not_fails {act : BenchAct} (fair : b.Fair act) : ¬ act.Fails := by
  intro fails
  cases act with
  | readable fd answer env => exact fails
  | writable fd answer addOk =>
      cases answer with
      | wrote nwritten => exact fails
      | failed => exact fair.1 rfl

/-- A fair run loses no request, and has no more steps than were left. -/
theorem Bench.Inv.run (sensible : Sensible content.length clients requests)
    (inv : b.Inv content true clients requests 0) {acts : List BenchAct}
    (fair : Along Bench.step Bench.Fair b acts) (ran : run Bench.step b acts = some b') :
    b'.Inv content true clients requests 0 ∧
      acts.countP (fun act => ¬ act.Idle) +
          stepsLeft content.length clients requests b'.tally b'.total ≤
        stepsLeft content.length clients requests b.tally b.total := by
  induction acts generalizing b with
  | nil =>
      cases ran
      exact ⟨inv, Nat.le_of_eq (Nat.zero_add _)⟩
  | cons act acts ih =>
      obtain ⟨b₁, stepped, rest⟩ := Option.bind_eq_some_iff.mp ran
      obtain ⟨now, later⟩ := fair
      obtain ⟨fate, lost', inv₁, same⟩ := inv.step sensible (fun _ => now) stepped
      obtain rfl := same now.not_fails
      obtain ⟨inv', fewer⟩ := ih inv₁ (later b₁ stepped) rest
      have less := fate.stepsLeft_le sensible inv.counted b.started_le now.not_fails
      refine ⟨inv', ?_⟩
      rw [List.countP_cons]
      by_cases idle : act.Idle
      · rw [if_pos idle] at less
        rw [if_neg (by simpa using idle)]
        omega
      · rw [if_neg idle] at less
        rw [if_pos (by simpa using idle)]
        omega

/-- The client waits for an event that it is registered for: to send the rest of its request, or
to get what is left of its answer. -/
def Bench.Waits (b : Bench) (cli : Nat) (c : BenchClient) : Prop :=
  (b.el.events c.fd).clientData = some cli ∧
    if c.written < c.obuf.length then
      (b.el.events c.fd).mask.writable = true ∧
        (b.el.events c.fd).wFileProc = some .writeHandler
    else
      (b.el.events c.fd).mask.readable = true ∧
        (b.el.events c.fd).rFileProc = some .readHandler ∧ c.read < c.written

theorem Bench.Inv.waits (inv : b.Inv content true clients requests lost)
    (live : b.heap cli = some c) : b.Waits cli c := by
  have fits := inv.wf.fits live
  have owed := fits.owed rfl
  unfold Bench.Waits
  rw [fits.obuf]
  split
  · next less =>
      have set := fits.sends rfl less
      have some' : (b.el.events c.fd).mask ≠ aeNone := by
        intro none
        rw [none] at set
        cases set
      exact ⟨fits.data some', set, (fits.writer set).1⟩
  · next all =>
      have sent : c.written = content.length := by omega
      have set := fits.waits rfl sent
      have some' : (b.el.events c.fd).mask ≠ aeNone := by
        intro none
        rw [none] at set
        cases set
      -- a client whose answer is complete is done
      have more : c.read ≠ content.length := by
        intro all
        have total := inv.wf.total_split live (w := answeredEach content.length)
        rw [inv.counted.unanswered, answeredEach, if_pos all] at total
        omega
      exact ⟨fits.data some', set, (fits.reader set).1, by omega⟩

/-- A fair answer to the only client. -/
theorem Bench.Inv.fair_of_alone (inv : b.Inv content true clients requests lost)
    (alone : b.clients = [cli]) (live : b.heap cli = some c) {fd nread : Nat}
    (less : c.read + nread ≤ c.written) :
    b.Fair (.readable fd (.data nread) ⟨[], true⟩) := by
  refine ⟨rfl, nofun, ?_⟩
  rintro _ ⟨⟩ other d there -
  have mem := (inv.wf.listed other).mpr ⟨d, there⟩
  rw [alone, List.mem_singleton] at mem
  subst mem
  rw [live] at there
  cases there
  exact less

/-- Where the event loop has room, the server sends back what it gets and no `write` fails, the
benchmark takes no more than so many steps that are not idle; as long as it goes on, a client
waits for an event that must come; and when it ends, all requests are answered. -/
theorem bench_finishes (sensible : Sensible content.length clients requests) {keepAlive : Bool}
    {fdOpen : Nat → Bool} {answer : Option ConnectAnswer} {answers : List (Option ConnectAnswer)}
    (room : Room answer ∧ ∀ answer ∈ answers, Room answer) {b₀ : Bench}
    (started : (Bench.init clients requests keepAlive fdOpen).start content answer answers = .ok b₀)
    {acts : List BenchAct} (fair : Along Bench.step Bench.Fair b₀ acts)
    (ran : run Bench.step b₀ acts = some b) :
    acts.countP (fun act => ¬ act.Idle) ≤
        requests * (2 * content.length + clients + 1) + clients ∧
      (b.quit = false → ∃ cli c, b.heap cli = some c ∧ b.Waits cli c) ∧
      (b.quit = true → b.requestsFinished = requests ∧ b.total startedEach = 0) := by
  obtain ⟨init, issued, total⟩ : b₀.Inv content true clients requests 0 ∧ _ ∧ _ :=
    Bench.inv_of_started sensible (fun _ => room) started
  obtain ⟨inv, steps⟩ := init.run sensible fair ran
  have counted := inv.counted
  have account := counted.account
  have quit : b.quit = true ↔ b.tally.finished = requests := counted.quit
  refine ⟨?_, fun goes => ?_, fun ended => ?_⟩
  · have all : stepsLeft content.length clients requests b₀.tally b₀.total =
        requests * (2 * content.length + clients + 1) + clients := by
      unfold stepsLeft
      rw [issued, total, effortEach_zero, Nat.mul_one, Int.sub_zero, Int.toNat_natCast]
    omega
  · -- either no client was spared yet, or a request is under way
    have some' : 1 ≤ b.total clientEach := by
      have most := b.started_le
      have client := sensible.client
      have open' : b.tally.finished ≠ requests := by
        intro all
        rw [quit.mpr all] at goes
        cases goes
      by_cases low : b.tally.issued ≤ requests
      · have full := counted.full rfl goes low
        omega
      · omega
    rw [inv.wf.total_one] at some'
    obtain ⟨cli, mem⟩ := List.exists_mem_of_length_pos some'
    obtain ⟨c, live⟩ := (inv.wf.listed cli).mp mem
    exact ⟨cli, c, live, inv.waits live⟩
  · have all := quit.mp ended
    exact ⟨all, by omega⟩

theorem bench_finishes_one : ∃ b₀ b,
    (Bench.init 1 1 true fun _ => false).start [104, 105] (some ⟨5, 1, true⟩) [] = .ok b₀ ∧
      run Bench.step b₀ oneByteActs = some b ∧ b.quit = true ∧
      oneByteActs.countP (fun act => ¬ act.Idle) ≤ 1 * (2 * 2 + 1 + 1) + 1 ∧
      b.requestsFinished = 1 ∧ b.total startedEach = 0 := by
  have ends : (((Bench.init 1 1 true fun _ => false).start [104, 105] (some ⟨5, 1, true⟩)
      []).toOption.bind fun b₀ => run Bench.step b₀ oneByteActs).any (fun b => b.quit) = true := by
    decide +kernel
  have sent : (((Bench.init 1 1 true fun _ => false).start [104, 105] (some ⟨5, 1, true⟩)
      []).toOption.bind fun b₀ => run Bench.step b₀ (oneByteActs.take 3)).any
      (fun b => b.clients = [1] ∧ b.heap 1 = some ⟨5, [104, 105], 2, 0⟩) = true := by
    decide +kernel
  obtain ⟨b, ran, quit⟩ := (Option.any_eq_true ..).mp ends
  obtain ⟨b₀, started, ran⟩ := Option.bind_eq_some_iff.mp ran
  have started := ok_of_toOption started
  have sensible : Sensible [104, 105].length 1 1 :=
    ⟨by decide, by decide, by decide, by decide, by decide⟩
  have room : Room (some ⟨5, 1, true⟩) ∧ ∀ answer ∈ ([] : List (Option ConnectAnswer)),
      Room answer := by
    refine ⟨?_, nofun⟩
    rintro _ ⟨⟩
    exact ⟨rfl, by decide⟩
  obtain ⟨init, -⟩ := Bench.inv_of_started sensible (fun _ => room) started
  have fair : Along Bench.step Bench.Fair b₀ oneByteActs := by
    have wrote (b : Bench) : b.Fair (.writable 5 (.wrote 1) true) := ⟨nofun, rfl⟩
    have again (b : Bench) : b.Fair (.readable 5 .again ⟨[], true⟩) := ⟨rfl, nofun, nofun⟩
    refine ⟨wrote b₀, fun b₁ first => ⟨wrote b₁, fun b₂ second => ⟨again b₂, fun b₃ third =>
      ⟨?_, fun _ _ => trivial⟩⟩⟩⟩
    obtain ⟨-, _, inv₁, -⟩ := init.step sensible (fun _ => wrote b₀) first
    obtain ⟨-, _, inv₂, -⟩ := inv₁.step sensible (fun _ => wrote b₁) second
    obtain ⟨-, _, inv₃, -⟩ := inv₂.step sensible (fun _ => again b₂) third
    have reached : run Bench.step b₀ (oneByteActs.take 3) = some b₃ :=
      run_cons first (run_cons second (run_cons third rfl))
    rw [started, Except.toOption, Option.bind_some, reached] at sent
    obtain ⟨alone, live⟩ := of_decide_eq_true sent
    exact inv₃.fair_of_alone alone live (by decide)
  obtain ⟨steps, -, done⟩ := bench_finishes sensible room started fair ran
  obtain ⟨all, none⟩ := done quit
  exact ⟨b₀, b, started, ran, quit, steps, all, none⟩

end Verben
