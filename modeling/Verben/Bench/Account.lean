import Verben.Bench.Fate

/-!
# The counters of the benchmark

What the counters say in every state of a run, whatever the server and the kernel do: a request
that is issued is finished, under way or lost (`Counted`).
-/

namespace Verben

open CInt

/-- For each client: 1; whether a part of its request was sent; how many calls of `write_handler`
may find no request left on its account; and whether its answer is there. -/
def clientEach : Nat → Nat → Nat := fun _ _ => 1
def startedEach : Nat → Nat → Nat := fun m _ => if m = 0 then 0 else 1
def spareEach (clients : Nat) : Nat → Nat → Nat := fun m _ => if m = 0 then 1 else clients
def answeredEach (len : Nat) : Nat → Nat → Nat := fun _ r => if r = len then 1 else 0

/-- What the counters say, with the requests that were `lost`: a request that is issued is
finished, under way or lost; and nothing overflows. -/
structure Counted (len clients requests lost : Nat) (t : Tally) (sum : (Nat → Nat → Nat) → Nat) :
    Prop where
  num : t.num = clients
  all : t.requests = requests
  live : t.live = sum clientEach
  few : sum clientEach ≤ clients
  issued : 0 ≤ t.issued
  finished : 0 ≤ t.finished
  account : t.finished + sum startedEach + lost = min t.issued requests
  quit : t.quit = true ↔ t.finished = requests
  bound : t.issued ≤ requests ∨
    t.issued + sum (spareEach clients) ≤ requests + (clients * clients : Nat)
  unanswered : sum (answeredEach len) = 0
  full : lost = 0 → t.quit = false → t.issued ≤ requests → sum clientEach = clients

/-- The program is called with a number of clients and of requests for which no counter
overflows. -/
structure Sensible (len clients requests : Nat) : Prop where
  client : 1 ≤ clients
  request : 1 ≤ requests
  small : requests + clients * clients < 2 ^ 31
  nonempty : 0 < len
  short : len < 2 ^ 31

variable {len clients requests lost : Nat} {heard : Bool} {act : BenchAct} {t t' : Tally}
  {sum sum' : (Nat → Nat → Nat) → Nat}

theorem Sensible.few (sensible : Sensible len clients requests) : clients < 2 ^ 31 - 1 := by
  obtain ⟨client, request, small, -, -⟩ := sensible
  have := Nat.mul_le_mul_left clients client
  omega

theorem startedEach_zero (r : Nat) : startedEach 0 r = 0 := rfl

theorem startedEach_of_pos {m : Nat} (positive : 0 < m) (r : Nat) : startedEach m r = 1 :=
  if_neg (Nat.pos_iff_ne_zero.mp positive)

theorem spareEach_zero (r : Nat) : spareEach clients 0 r = 1 := rfl

theorem spareEach_of_pos {m : Nat} (positive : 0 < m) (r : Nat) :
    spareEach clients m r = clients :=
  if_neg (Nat.pos_iff_ne_zero.mp positive)

theorem answeredEach_of_ne {r : Nat} (ne : r ≠ len) (m : Nat) : answeredEach len m r = 0 :=
  if_neg ne

/-- What a client brings, and brings no more. -/
theorem clientEach_eq (m r : Nat) : clientEach m r = 1 := rfl

/-- `requests_issued` has room for another one as long as there is a client. -/
theorem Counted.next_issued (sensible : Sensible len clients requests)
    (counted : Counted len clients requests lost t sum) (some' : 1 ≤ sum (spareEach clients)) :
    toInt32 (t.issued + 1) = t.issued + 1 := by
  have small := sensible.small
  have square := Nat.mul_le_mul sensible.client sensible.client
  have bound := counted.bound
  have issued := counted.issued
  exact toInt32_of_range (by omega) (by omega)

/-- A client is freed that was not needed for another request. -/
theorem Counted.spare (sensible : Sensible len clients requests)
    (counted : Counted len clients requests lost t sum) {r : Nat} (enough : t.requests ≤ t.issued)
    (total : ∀ w, sum' w + w 0 r = sum w)
    (spares : sum' (spareEach clients) ≤ clients * sum' clientEach) :
    Counted len clients requests lost { t.issue 0 with live := toInt32 (t.live - 1) } sum' := by
  have few' := sensible.few
  have one := total clientEach
  have started := total startedEach
  have spare := total (spareEach clients)
  have none := total (answeredEach len)
  rw [clientEach_eq] at one
  rw [startedEach_zero] at started
  rw [spareEach_zero] at spare
  have next := counted.next_issued sensible (by omega)
  obtain ⟨num, all, live, few, issued, finished, account, quit, bound, unanswered, full⟩ := counted
  have square : clients * sum' clientEach + clients ≤ clients * clients := by
    calc clients * sum' clientEach + clients
        = clients * (sum' clientEach + 1) := by rw [Nat.mul_succ]
      _ ≤ clients * clients := Nat.mul_le_mul_left _ (by omega)
  have less : toInt32 (t.live - 1) = t.live - 1 := toInt32_of_range (by omega) (by omega)
  unfold Tally.issue
  rw [if_pos rfl, next, less]
  refine ⟨num, all, ?_, ?_, ?_, finished, ?_, quit, ?_, ?_, ?_⟩
  · change t.live - 1 = _
    omega
  · omega
  · change 0 ≤ t.issued + 1
    omega
  · change t.finished + _ + _ = min (t.issued + 1) _
    omega
  · change t.issued + 1 ≤ _ ∨ t.issued + 1 + _ ≤ _
    omega
  · omega
  · intro _ _ high
    change t.issued + 1 ≤ _ at high
    omega

/-- The counter behind a request that may be issued. -/
theorem Counted.issue_issued (sensible : Sensible len clients requests)
    (counted : Counted len clients requests lost t sum) {m : Nat}
    (more : m = 0 → t.issued < t.requests) :
    (t.issue m).issued = t.issued + (if m = 0 then 1 else 0) := by
  have small := sensible.small
  have all := counted.all
  have issued := counted.issued
  unfold Tally.issue
  split
  · next zero =>
      have := more zero
      exact toInt32_of_range (by omega) (by omega)
  · exact (Int.add_zero _).symm

/-- Either a client begins a request, and it is issued, or it was under way before. -/
theorem Counted.issue_cases (sensible : Sensible len clients requests)
    (counted : Counted len clients requests lost t sum) {m : Nat}
    (more : m = 0 → t.issued < t.requests) (r : Nat) :
    (t.issued < requests ∧ (t.issue m).issued = t.issued + 1 ∧ startedEach m r = 0 ∧
        spareEach clients m r = 1) ∨
      ((t.issue m).issued = t.issued ∧ startedEach m r = 1 ∧ spareEach clients m r = clients) := by
  have next := counted.issue_issued sensible more
  rcases Nat.eq_zero_or_pos m with rfl | before
  · rw [if_pos rfl] at next
    have less := more rfl
    rw [counted.all] at less
    exact .inl ⟨less, next, startedEach_zero r, spareEach_zero r⟩
  · rw [if_neg (Nat.pos_iff_ne_zero.mp before), Int.add_zero] at next
    exact .inr ⟨next, startedEach_of_pos before r, spareEach_of_pos before r⟩

/-- A client is freed that cannot send its request. -/
theorem Counted.lose (sensible : Sensible len clients requests)
    (counted : Counted len clients requests lost t sum) {m r : Nat}
    (more : m = 0 → t.issued < t.requests) (total : ∀ w, sum' w + w m r = sum w) :
    Counted len clients requests (lost + 1) { t.issue m with live := toInt32 (t.live - 1) }
      sum' := by
  have few' := sensible.few
  have issue := counted.issue_cases sensible more r
  obtain ⟨num, all, live, few, issued, finished, account, quit, bound, unanswered, full⟩ := counted
  have one := total clientEach
  have started := total startedEach
  have spare := total (spareEach clients)
  have none := total (answeredEach len)
  rw [clientEach_eq] at one
  have less : toInt32 (t.live - 1) = t.live - 1 := toInt32_of_range (by omega) (by omega)
  rw [less]
  refine ⟨num, all, ?_, by omega, ?_, finished, ?_, quit, ?_, by omega, by omega⟩
  · change t.live - 1 = _
    omega
  · change 0 ≤ (t.issue m).issued
    rcases issue with ⟨_, next, _⟩ | ⟨next, _⟩ <;> omega
  · change t.finished + _ + _ = min (t.issue m).issued _
    rcases issue with ⟨low, next, began, _⟩ | ⟨next, began, _⟩ <;> omega
  · change (t.issue m).issued ≤ _ ∨ (t.issue m).issued + _ ≤ _
    rcases issue with ⟨low, next, _⟩ | ⟨next, _⟩ <;> omega

/-- A part of a request is sent. -/
theorem Counted.send (sensible : Sensible len clients requests)
    (counted : Counted len clients requests lost t sum) {m r n : Nat}
    (more : m = 0 → t.issued < t.requests) (positive : 0 < n)
    (total : ∀ w, sum' w + w m r = sum w + w (m + n) r) :
    Counted len clients requests lost (t.issue m) sum' := by
  have issue := counted.issue_cases sensible more r
  obtain ⟨num, all, live, few, issued, finished, account, quit, bound, unanswered, full⟩ := counted
  have one := total clientEach
  have started := total startedEach
  have spare := total (spareEach clients)
  have none : sum' (answeredEach len) + answeredEach len m r =
    sum (answeredEach len) + answeredEach len m r := total (answeredEach len)
  rw [clientEach_eq, clientEach_eq] at one
  have sent : 0 < m + n := by omega
  rw [startedEach_of_pos sent] at started
  rw [spareEach_of_pos sent] at spare
  refine ⟨num, all, ?_, by omega, ?_, finished, ?_, quit, ?_, by omega, ?_⟩
  · change t.live = _
    omega
  · rcases issue with ⟨_, next, _⟩ | ⟨next, _⟩ <;> omega
  · change t.finished + _ + _ = min (t.issue m).issued _
    rcases issue with ⟨low, next, began, _⟩ | ⟨next, began, _⟩ <;> omega
  · rcases issue with ⟨low, next, _, spared⟩ | ⟨next, _, spared⟩ <;> omega
  · intro none quit low
    have := full none quit (by rcases issue with ⟨_, next, _⟩ | ⟨next, _⟩ <;> omega)
    omega

/-- A part of an answer is there. -/
theorem Counted.get (sensible : Sensible len clients requests)
    (counted : Counted len clients requests lost t sum) {r r' : Nat} (more : r' ≠ len)
    (total : ∀ w, sum' w + w len r = sum w + w len r') :
    Counted len clients requests lost t sum' := by
  have positive := sensible.nonempty
  obtain ⟨num, all, live, few, issued, finished, account, quit, bound, unanswered, full⟩ := counted
  have one := total clientEach
  have started := total startedEach
  have spare := total (spareEach clients)
  have none := total (answeredEach len)
  rw [clientEach_eq, clientEach_eq] at one
  rw [startedEach_of_pos positive, startedEach_of_pos positive] at started
  rw [spareEach_of_pos positive, spareEach_of_pos positive] at spare
  rw [answeredEach_of_ne more] at none
  refine ⟨num, all, by omega, by omega, issued, finished, by omega, quit, by omega, by omega, ?_⟩
  intro none quit low
  have := full none quit low
  omega

/-- The request was under way. -/
theorem DoneFate.under {m r : Nat} (done : DoneFate t t' sum sum' m r) (positive : 0 < m) :
    1 ≤ sum startedEach := by
  cases done with
  | last enough tally total =>
      have started := total startedEach
      rw [startedEach_of_pos positive] at started
      omega
  | reset more tally total =>
      have started := total startedEach
      rw [startedEach_of_pos positive, startedEach_zero] at started
      omega
  | renewed more tally total =>
      have started := total startedEach
      rw [startedEach_of_pos positive, startedEach_zero] at started
      omega

/-- A request is answered. -/
theorem Counted.done (sensible : Sensible len clients requests)
    (counted : Counted len clients requests lost t sum) {r : Nat}
    (done : DoneFate { t with finished := toInt32 (t.finished + 1) } t' sum sum' len r)
    (most : sum startedEach ≤ sum clientEach) : Counted len clients requests lost t' sum' := by
  have few' := sensible.few
  obtain ⟨client, request, small, positive, short⟩ := sensible
  have under := done.under positive
  obtain ⟨num, all, live, few, issued, finished, account, quit, bound, unanswered, full⟩ := counted
  have next : toInt32 (t.finished + 1) = t.finished + 1 := toInt32_of_range (by omega) (by omega)
  have running : t.quit = false := by
    rw [← Bool.not_eq_true, quit]
    omega
  have zero : answeredEach len 0 0 = 0 := answeredEach_of_ne (Nat.ne_of_lt positive) 0
  rw [next] at done
  cases done with
  | last enough tally total =>
      change t.finished + 1 = t.requests at enough
      have one := total clientEach
      have started := total startedEach
      have spare := total (spareEach clients)
      have none := total (answeredEach len)
      rw [clientEach_eq] at one
      rw [startedEach_of_pos positive] at started
      rw [spareEach_of_pos positive] at spare
      have less : toInt32 (t.live - 1) = t.live - 1 := toInt32_of_range (by omega) (by omega)
      subst tally
      refine ⟨num, all, ?_, by omega, issued, ?_, ?_, ?_, ?_, by omega, nofun⟩
      · change toInt32 (t.live - 1) = _
        omega
      · change 0 ≤ t.finished + 1
        omega
      · change t.finished + 1 + _ + _ = min t.issued _
        omega
      · exact ⟨fun _ => enough.trans all, fun _ => rfl⟩
      · change t.issued ≤ _ ∨ t.issued + _ ≤ _
        omega
  | reset more tally total =>
      change t.finished + 1 ≠ t.requests at more
      have one := total clientEach
      have started := total startedEach
      have spare := total (spareEach clients)
      have none := total (answeredEach len)
      rw [clientEach_eq, clientEach_eq] at one
      rw [startedEach_of_pos positive, startedEach_zero] at started
      rw [spareEach_of_pos positive, spareEach_zero] at spare
      rw [zero] at none
      subst tally
      refine ⟨num, all, ?_, by omega, issued, ?_, ?_, ?_, ?_, by omega, ?_⟩
      · change t.live = _
        omega
      · change 0 ≤ t.finished + 1
        omega
      · change t.finished + 1 + _ + _ = min t.issued _
        omega
      · change t.quit = true ↔ t.finished + 1 = _
        rw [running, ← all]
        simpa using more
      · change t.issued ≤ _ ∨ t.issued + _ ≤ _
        omega
      · intro none quit low
        have := full none quit low
        omega
  | renewed more tally total =>
      change t.finished + 1 ≠ t.requests at more
      have one := total clientEach
      have started := total startedEach
      have spare := total (spareEach clients)
      have none := total (answeredEach len)
      change _ = _ + (t.num - t.live + 1).toNat * _ at one started spare none
      rw [clientEach_eq, clientEach_eq, Nat.mul_one] at one
      rw [startedEach_of_pos positive, startedEach_zero, Nat.mul_zero] at started
      rw [spareEach_of_pos positive, spareEach_zero, Nat.mul_one] at spare
      rw [zero, Nat.mul_zero] at none
      subst tally
      refine ⟨num, all, ?_, by omega, issued, ?_, ?_, ?_, ?_, by omega, ?_⟩
      · change t.num = _
        omega
      · change 0 ≤ t.finished + 1
        omega
      · change t.finished + 1 + _ + _ = min t.issued _
        omega
      · change t.quit = true ↔ t.finished + 1 = _
        rw [running, ← all]
        simpa using more
      · change t.issued ≤ _ ∨ t.issued + _ ≤ _
        omega
      · intro _ _ _
        omega

theorem Counted.step (sensible : Sensible len clients requests)
    (counted : Counted len clients requests lost t sum)
    (fate : BenchFate len heard act t t' sum sum')
    (most : sum startedEach ≤ sum clientEach)
    (spares : sum' (spareEach clients) ≤ clients * sum' clientEach) :
    ∃ lost', Counted len clients requests lost' t' sum' ∧ (¬ act.Fails → lost' = lost) := by
  cases fate with
  | idle again tally total =>
      have same : sum' = sum := funext total
      exact ⟨lost, tally ▸ same ▸ counted, fun _ => rfl⟩
  | spare r enough tally total =>
      exact ⟨lost, tally ▸ counted.spare sensible enough total spares, fun _ => rfl⟩
  | lost m r fails more tally total =>
      exact ⟨lost + 1, tally ▸ counted.lose sensible more total, fun fair => absurd fails fair⟩
  | sent m r n more positive fits tally total =>
      exact ⟨lost, tally ▸ counted.send sensible more positive total, fun _ => rfl⟩
  | got r r' more less tally total =>
      exact ⟨lost, tally ▸ counted.get sensible more total, fun _ => rfl⟩
  | done r done => exact ⟨lost, counted.done sensible done most, fun _ => rfl⟩

end Verben
