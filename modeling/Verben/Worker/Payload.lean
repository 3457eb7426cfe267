import Verben.Worker.Model

/-!
# The payload of a response

A message that a worker pushes should have the bytes that the plugin returned for
its request, and none when it returned none. It has `retlen` bytes, and `retlen` is
that of an earlier request when the plugin does not store one. `stale_payload` is
what becomes of that.
-/

namespace Verben

/-- The plugin returned bytes and their number. -/
def ProcessAnswer.ReturnsData (a : ProcessAnswer) : Prop :=
  a.ret ≠ verbenError ∧ a.sndbuf.isSome ∧ a.sndlen.isSome

/-- The bytes that the plugin returned. -/
def ProcessAnswer.returned (a : ProcessAnswer) : List UInt8 :=
  if a.ret ≠ verbenError then
    match a.sndbuf, a.sndlen with
    | some bytes, some len => bytes.take len.toNat
    | _, _ => []
  else
    []

/-- The response to a request, by the request and the answer to it alone. -/
def Handled.response (h : Handled) : ShmMsg :=
  { h.msg with closeConn := some h.answer.closeConn, data := h.answer.returned }

/-- The last length that a plugin stored, and the first content of `retlen` before. -/
def lastLen (retlen : Int) (handled : List Handled) : Int :=
  handled.foldl (fun len h => h.answer.retlen len) retlen

/-- Where the plugin returned no bytes, the last length that it stored is 0. -/
def NoStaleLength (retlen : Int) (handled : List Handled) : Prop :=
  ∀ early h late, handled = early ++ h :: late →
    h.answer.ReturnsData ∨ lastLen retlen (early ++ [h]) = 0

/-- The same message is pushed wherever two runs have the same request and answer. -/
def SameResponses (handled handled' : List Handled) (pushed pushed' : List ShmMsg) : Prop :=
  ∀ (i j : Nat) (h h' : Handled) (m m' : ShmMsg), handled[i]? = some h → handled'[j]? = some h' →
    h.msg = h'.msg → h.answer = h'.answer → pushed[i]? = some m → pushed'[j]? = some m' → m = m'

/-! ## One pass -/

section Pass

variable {h : Handled} {a : ProcessAnswer} {data data' : List UInt8} {n : Nat}

theorem length_resized (resized : h.resized n = some data) : n ≤ data.length := by
  unfold Handled.resized at resized
  split at resized
  · obtain ⟨memory, _, rfl⟩ := Option.map_eq_some_iff.mp resized
    have len : (reallocData h.msg.data n memory).length = n := by
      unfold reallocData
      rw [List.length_map, List.length_range]
    exact Nat.le_of_eq len.symm
  · omega

/-- The length that was asked for is there, whatever was copied. -/
theorem length_copyTo (copied : a.copyTo n data = some data') (enough : n ≤ data.length) :
    n ≤ data'.length := by
  unfold ProcessAnswer.copyTo at copied
  split at copied
  · split at copied
    · cases copied
      exact enough
    · split at copied
      · split at copied
        · cases copied
          rw [List.length_append, List.length_take]
          omega
        · cases copied
      · omega
  · cases copied
    exact enough

theorem take_copyTo (returns : a.ReturnsData) (len : a.sndlen = some (n : Int))
    (copied : a.copyTo n data = some data') : data'.take n = a.returned := by
  rcases returns with ⟨ok, there, _⟩
  obtain ⟨bytes, sndbuf⟩ := Option.isSome_iff_exists.mp there
  unfold ProcessAnswer.copyTo at copied
  unfold ProcessAnswer.returned
  rw [if_pos ok, sndbuf] at copied
  rw [if_pos ok, sndbuf, len]
  simp only [Int.toNat_natCast] at copied ⊢
  split at copied
  · split at copied
    · cases copied
      have taken : (bytes.take n).length = n := List.length_take_of_le ‹_›
      rw [List.take_append_of_le_length (Nat.le_of_eq taken.symm), List.take_take, Nat.min_self]
    · cases copied
  · have none : n = 0 := by omega
    rw [none, List.take_zero, List.take_zero]

theorem returned_of_not_returnsData (none : ¬ a.ReturnsData) : a.returned = [] := by
  unfold ProcessAnswer.returned
  split
  · next ok =>
      split
      · next sndbuf sndlen => exact absurd ⟨ok, by rw [sndbuf]; rfl, by rw [sndlen]; rfl⟩ none
      · rfl
  · rfl

/-- Worker processes don't modify the message header segment, `close_conn` apart. -/
theorem workerReply_header {retlen retlen' : Int} {m : ShmMsg}
    (replied : workerReply retlen h = some (retlen', m)) :
    m = { h.msg with closeConn := some h.answer.closeConn, data := m.data } := by
  unfold workerReply at replied
  simp only at replied
  split at replied
  · obtain ⟨data, _, rest⟩ := Option.bind_eq_some_iff.mp replied
    obtain ⟨data', _, same⟩ := Option.map_eq_some_iff.mp rest
    cases same
    rfl
  · cases replied

/-- **One pass pushes the right message** unless it has a length for no bytes. -/
theorem workerReply_eq_response_iff {retlen retlen' : Int} {m : ShmMsg}
    (replied : workerReply retlen h = some (retlen', m)) :
    retlen' = h.answer.retlen retlen ∧
      (m = h.response ↔ h.answer.ReturnsData ∨ h.answer.retlen retlen = 0) := by
  unfold workerReply at replied
  simp only at replied
  split at replied
  · next nonneg =>
      obtain ⟨data, resized, rest⟩ := Option.bind_eq_some_iff.mp replied
      obtain ⟨data', copied, same⟩ := Option.map_eq_some_iff.mp rest
      cases same
      refine ⟨rfl, ?_⟩
      have enough := length_copyTo copied (length_resized resized)
      unfold Handled.response
      simp only [ShmMsg.mk.injEq, true_and]
      by_cases returns : h.answer.ReturnsData
      · obtain ⟨len, sndlen⟩ := Option.isSome_iff_exists.mp returns.2.2
        have stored : h.answer.retlen retlen = len := by
          unfold ProcessAnswer.retlen
          rw [sndlen]
          rfl
        rw [stored] at nonneg copied ⊢
        refine iff_of_true (take_copyTo returns ?_ copied) (.inl returns)
        rw [sndlen, Int.toNat_of_nonneg nonneg]
      · rw [returned_of_not_returnsData returns, List.take_eq_nil_iff, or_iff_right returns]
        constructor
        · intro either
          rcases either with zero | empty
          · omega
          · rw [empty, List.length_nil] at enough
            omega
        · intro zero
          exact .inl (by omega)
  · cases replied

end Pass

/-! ## A run -/

section Run

variable {retlen last : Int} {h : Handled} {handled : List Handled} {pushed : List ShmMsg}

theorem noStaleLength_nil : NoStaleLength retlen [] := by
  intro early h late split
  cases early <;> cases split

theorem noStaleLength_cons :
    NoStaleLength retlen (h :: handled) ↔
      (h.answer.ReturnsData ∨ h.answer.retlen retlen = 0) ∧
        NoStaleLength (h.answer.retlen retlen) handled := by
  constructor
  · intro fresh
    refine ⟨fresh [] h handled rfl, ?_⟩
    intro early h' late same
    subst same
    exact fresh (h :: early) h' late rfl
  · intro both early h' late split
    rcases both with ⟨first, fresh⟩
    cases early with
    | nil =>
        cases split
        exact first
    | cons _ early =>
        cases split
        exact fresh early h' late rfl

/-- A run pushes the response to each request unless a length is stale. -/
theorem workerRun_eq_responses_iff (ran : workerRun retlen handled = some (last, pushed)) :
    pushed = handled.map Handled.response ↔ NoStaleLength retlen handled := by
  induction handled generalizing retlen pushed with
  | nil =>
      cases ran
      exact iff_of_true rfl noStaleLength_nil
  | cons h handled ih =>
      obtain ⟨⟨retlen', m⟩, replied, rest⟩ := Option.bind_eq_some_iff.mp ran
      obtain ⟨⟨last', later⟩, ran', same⟩ := Option.map_eq_some_iff.mp rest
      cases same
      obtain ⟨rfl, exact⟩ := workerReply_eq_response_iff replied
      rw [List.map_cons, List.cons.injEq, noStaleLength_cons, exact, ih ran']

/-- **The message for a request depends on the request and its own answer.** For every
two runs of workers, over any requests and any answers of the plugin: every message
pushed has exactly the bytes that the plugin returned for its request, none where it
returned none, with the close flag for its answer, and the runs push the same message
for the same request and answer, if and only if in both runs the last length that the
plugin stored is 0 wherever it returned no bytes. -/
theorem worker_responses_iff {retlen' last' : Int} {handled' : List Handled}
    {pushed' : List ShmMsg} (ran : workerRun retlen handled = some (last, pushed))
    (ran' : workerRun retlen' handled' = some (last', pushed')) :
    (pushed = handled.map Handled.response ∧ pushed' = handled'.map Handled.response ∧
        SameResponses handled handled' pushed pushed') ↔
      NoStaleLength retlen handled ∧ NoStaleLength retlen' handled' := by
  rw [← workerRun_eq_responses_iff ran, ← workerRun_eq_responses_iff ran']
  refine ⟨fun ⟨exact, exact', _⟩ => ⟨exact, exact'⟩, ?_⟩
  intro both
  rcases both with ⟨rfl, rfl⟩
  refine ⟨rfl, rfl, ?_⟩
  intro i j h h' m m' at_i at_j msg answer pushed_i pushed_j
  rw [List.getElem?_map, at_i] at pushed_i
  rw [List.getElem?_map, at_j] at pushed_j
  cases pushed_i
  cases pushed_j
  unfold Handled.response
  rw [msg, answer]

end Run

/-! ## Two requests -/

/-- A request of two bytes. -/
def twoByteRequest (answer : ProcessAnswer) : Handled where
  msg := ⟨1, 7, 0, connMsgMagic, 100, "10.0.0.1", 80, none, [65, 66]⟩
  answer := answer
  memory := some fun _ => 0

/-- An answer of one byte. -/
def oneByteAnswer : ProcessAnswer := ⟨0, some [97], some 1⟩

/-- `VERBEN_ERROR`, with neither of the outputs written, as the http plugin returns it
for a method other than `GET`. -/
def bareError : ProcessAnswer := ⟨verbenError, none, none⟩

/-- A response of one byte, and an error for which the plugin stores 0. -/
def zeroedError : List Handled :=
  [twoByteRequest oneByteAnswer, twoByteRequest ⟨verbenError, none, some 0⟩]

theorem worker_responses_zeroed :
    ∃ pushed pushed', workerRun 0 zeroedError = some (0, pushed) ∧
      workerRun 0 [twoByteRequest bareError] = some (0, pushed') ∧
      pushed = zeroedError.map Handled.response ∧
      pushed' = [twoByteRequest bareError].map Handled.response ∧
      SameResponses zeroedError [twoByteRequest bareError] pushed pushed' := by
  have fresh : NoStaleLength 0 zeroedError :=
    noStaleLength_cons.mpr ⟨.inl ⟨by decide, rfl, rfl⟩,
      noStaleLength_cons.mpr ⟨.inr rfl, noStaleLength_nil⟩⟩
  have fresh' : NoStaleLength 0 [twoByteRequest bareError] :=
    noStaleLength_cons.mpr ⟨.inr rfl, noStaleLength_nil⟩
  have ran : workerRun 0 zeroedError = some (0, zeroedError.map Handled.response) := by
    decide +kernel
  have ran' : workerRun 0 [twoByteRequest bareError] =
      some (0, [twoByteRequest bareError].map Handled.response) := by
    decide +kernel
  exact ⟨_, _, ran, ran', (worker_responses_iff ran ran').mpr ⟨fresh, fresh'⟩⟩

/-- **An error that is answered with bytes of the request.** After a response of one
byte, the first byte of the next request is sent back for `VERBEN_ERROR`; as a first
request it gets no bytes. -/
theorem stale_payload :
    workerRun 0 [twoByteRequest oneByteAnswer, twoByteRequest bareError] =
        some (1, [{ (twoByteRequest oneByteAnswer).response with data := [97] },
          { (twoByteRequest bareError).response with data := [65] }]) ∧
      (twoByteRequest bareError).response.data = [] ∧
      workerRun 0 [twoByteRequest bareError] =
        some (0, [(twoByteRequest bareError).response]) := by
  decide +kernel

end Verben
