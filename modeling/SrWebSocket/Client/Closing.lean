import SrWebSocket.Client.Worker

/-! # The close of a client

`OnClose` sets the flag and posts nothing, and the worker looks at the flag in one
place only, in front of its wait. So a worker that waits without a permit when the
client closes waits for good, and one that comes to the flag with bytes still in
the receive buffer leaves them there.
-/
namespace SrWebSocket

/-- The worker waits on a semaphore whose count is zero. -/
def WsCli.Blocked (cli : WsCli) : Prop := cli.task = .wait ∧ cli.mcUvSem = 0

/-- After `OnClose` the worker has left `TaskExcute` or can take a step, whatever the
network thread does. -/
def FreeAfterClose (cli : WsCli) : Prop :=
  cli.mbCloseFlag = true →
    (cli.task = .left ∨ ∃ a, CliAct.OfWorker a ∧ (cli.step a).isSome) ∧ ¬cli.Blocked

/-- `OnClose` does not come while the worker is blocked. -/
def ClosesUnblocked (cli : WsCli) (a : CliAct) : Prop := a = .onClose → ¬cli.Blocked

/-- `ParseMsg` has found all that was received before `OnClose` in the cache. -/
def ReceivedParsed (cli : WsCli) : Prop := cli.received.flatten <+: cli.parsed.flatten

instance (cli : WsCli) : Decidable (ReceivedParsed cli) := inferInstanceAs (Decidable (_ <+: _))

/-- `OnClose` does not come while there are bytes to move and the worker is past its wait. -/
def ClosesBeforeMove (cli : WsCli) (a : CliAct) : Prop :=
  a = .onClose → cli.mpInput.mpRecvBuffer = [] ∨ cli.task = .wait ∨ cli.task = .move

variable {cli cli' : WsCli} {a : CliAct} {acts : List CliAct}

/-! ## The blocked worker -/

theorem left_or_enabled_iff : (cli.task = .left ∨ ∃ a, CliAct.OfWorker a ∧ (cli.step a).isSome) ↔ ¬cli.Blocked := by
  constructor
  · rintro (hleft | ⟨a, ha, hs⟩) ⟨htask, hsem⟩
    · exact absurd (htask.symm.trans hleft) (by simp)
    · cases a with
      | testFlag => simp [WsCli.step, htask] at hs
      | wait => simp [WsCli.step, hsem] at hs
      | moveMsg => simp [WsCli.step, htask] at hs
      | parseMsg pBuffer => simp [WsCli.step, htask] at hs
      | pushMsg pMsg => exact ha
      | post => exact ha
      | onClose => exact ha
  · intro hfree
    cases htask : cli.task with
    | test => exact Or.inr ⟨.testFlag, trivial, by simp [WsCli.step, htask]⟩
    | wait =>
      have hpos : 0 < cli.mcUvSem := Nat.pos_of_ne_zero fun hsem => hfree ⟨htask, hsem⟩
      exact Or.inr ⟨.wait, trivial, by simp [WsCli.step, htask, hpos]⟩
    | move => exact Or.inr ⟨.moveMsg, trivial, by simp [WsCli.step, htask]⟩
    | parse => exact Or.inr ⟨.parseMsg [], trivial, by simp [WsCli.step, htask]⟩
    | left => exact Or.inl rfl

theorem freeAfterClose_iff : FreeAfterClose cli ↔ (cli.mbCloseFlag = true → ¬cli.Blocked) := by
  unfold FreeAfterClose
  rw [left_or_enabled_iff, and_self]

/-- After a close that did not find the worker blocked, no step blocks it. -/
theorem step_unblocked (h : cli.mbCloseFlag = true → ¬cli.Blocked) (hC : ClosesUnblocked cli a)
    (hs : cli.step a = some cli') : cli'.mbCloseFlag = true → ¬cli'.Blocked := by
  intro hflag ⟨htask', hsem'⟩
  cases WsCli.step_cases hs with
  | noData hrecv => exact h hflag ⟨htask', hsem'⟩
  | pushMsg pMsg hrecv hne => exact h hflag ⟨htask', hsem'⟩
  | post hrecv => cases hsem'
  | onClose hrecv hopen => exact hC rfl ⟨htask', hsem'⟩
  | stay htask hopen => exact absurd (hopen.symm.trans hflag) (by simp)
  | leave htask hclosed => cases htask'
  | wait htask hsem => cases htask'
  | moveMsg htask => cases htask'
  | parseMsg pBuffer htask => cases htask'

/-- The worker of a closed client is never left blocked in a run exactly when it is
not blocked at the close. -/
theorem freeAfterClose_run_iff (acts : List CliAct) (cli : WsCli)
    (hrun : Machine.exec WsCli.step .start acts = some cli) :
    Machine.EachState WsCli.step FreeAfterClose .start acts ↔
      Machine.EachStep WsCli.step ClosesUnblocked .start acts := by
  constructor
  · rintro hfree as₁ a as₂ s rfl hs rfl
    obtain ⟨s', hs', hrest⟩ := Machine.exec_append.mp hrun
    obtain rfl := Option.some.inj (hs.symm.trans hs')
    obtain ⟨t, ht, _⟩ := Machine.exec_cons_eq_some.mp hrest
    have hrun' : Machine.exec WsCli.step .start (as₁ ++ [.onClose]) = some t :=
      Machine.exec_append.mpr ⟨s, hs, Machine.exec_cons_eq_some.mpr ⟨t, ht, rfl⟩⟩
    have hafter := freeAfterClose_iff.mp (hfree (as₁ ++ [.onClose]) as₂ t (by simp) hrun')
    cases WsCli.step_cases ht with
    | onClose hrecv hopen => exact hafter rfl
  · intro hC as₁ as₂ t he ht
    have hinv := Machine.eachState_of_eachStep (fun s => s.mbCloseFlag = true → ¬s.Blocked)
      (fun _ _ _ hi hc hs => step_unblocked hi hc hs) (fun hflag => absurd hflag (by decide)) hC as₁ as₂ t he ht
    exact freeAfterClose_iff.mpr hinv

theorem freeAfterClose_drained :
    Machine.EachState WsCli.step FreeAfterClose .start [.pushMsg [97], .post, .testFlag, .onClose, .wait] ↔
      Machine.EachStep WsCli.step ClosesUnblocked .start [.pushMsg [97], .post, .testFlag, .onClose, .wait] := by
  have hrun : (Machine.exec WsCli.step .start [.pushMsg [97], .post, .testFlag, .onClose, .wait]).isSome := by decide
  obtain ⟨cli, hcli⟩ := Option.isSome_iff_exists.mp hrun
  exact freeAfterClose_run_iff _ cli hcli

/-- The worker passes the flag test and waits; then the client closes. -/
theorem idleWorker_blocked :
    ∃ cli, Machine.exec WsCli.step .start [.testFlag, .onClose] = some cli ∧
      cli.mbCloseFlag = true ∧ cli.recv = .outside ∧ cli.Blocked ∧ ¬FreeAfterClose cli :=
  ⟨_, rfl, rfl, rfl, ⟨rfl, rfl⟩, fun h => (h rfl).2 ⟨rfl, rfl⟩⟩

/-! ## The bytes that are left -/

/-- What was received before the close is in the cache, or will be moved there. -/
def MovesReceived (cli : WsCli) : Prop :=
  cli.received.flatten <+: cli.moved.flatten ∨ cli.task = .wait ∨ cli.task = .move

theorem movesReceived_close (h : WorkerInv cli) (hrecv : cli.recv = .outside) (hopen : cli.mbCloseFlag = false) :
    MovesReceived cli ↔ cli.mpInput.mpRecvBuffer = [] ∨ cli.task = .wait ∨ cli.task = .move := by
  have hprefix : cli.received.flatten <+: cli.moved.flatten ↔ cli.mpInput.mpRecvBuffer = [] := by
    rw [h.receivedAll hopen hrecv, ← h.conserved]
    constructor
    · intro hp
      have hlen := hp.length_le
      rw [List.length_append] at hlen
      exact List.length_eq_zero_iff.mp (by omega)
    · intro hnil
      simp [hnil]
  rw [MovesReceived, hprefix]

theorem movesReceived_step (h : WorkerInv cli) (hs : cli.step a = some cli') :
    (cli'.mbCloseFlag = true → MovesReceived cli') ↔
      (cli.mbCloseFlag = true → MovesReceived cli) ∧ ClosesBeforeMove cli a := by
  have hother : a ≠ .onClose → (ClosesBeforeMove cli a ↔ True) := fun ha => iff_true_intro fun hc => absurd hc ha
  cases WsCli.step_cases hs with
  | noData hrecv => rw [hother (by simp), and_true]
  | pushMsg pMsg hrecv hne =>
    rw [hother (by simp), and_true]
    exact Iff.rfl
  | post hrecv =>
    rw [hother (by simp), and_true]
    refine imp_congr_right fun (hflag : cli.mbCloseFlag = true) => ?_
    simp only [MovesReceived, hflag, if_true]
  | onClose hrecv hopen =>
    have hclose : ClosesBeforeMove cli .onClose ↔ MovesReceived cli :=
      (imp_iff_right rfl).trans (movesReceived_close h hrecv hopen).symm
    rw [hclose]
    exact ⟨fun hm => ⟨fun hflag => absurd (hopen.symm.trans hflag) (by simp), hm rfl⟩, fun hm _ => hm.2⟩
  | stay htask hopen =>
    rw [hother (by simp), and_true]
    exact ⟨fun _ hflag => absurd (hopen.symm.trans hflag) (by simp), fun _ _ => Or.inr (Or.inl rfl)⟩
  | leave htask hclosed =>
    rw [hother (by simp), and_true]
    simp [MovesReceived, htask]
  | wait htask hsem =>
    rw [hother (by simp), and_true]
    exact ⟨fun _ _ => Or.inr (Or.inl htask), fun _ _ => Or.inr (Or.inr rfl)⟩
  | moveMsg htask =>
    rw [hother (by simp), and_true]
    refine ⟨fun _ _ => Or.inr (Or.inr htask), fun _ _ => Or.inl ?_⟩
    obtain ⟨later, hlater⟩ := h.received
    have hall : (cli.moved ++ [cli.mpInput.appended]).flatten = cli.pushed.flatten := by
      simpa [Input.appended_eq] using h.conserved
    rw [hall, ← hlater, List.flatten_append]
    exact List.prefix_append _ _
  | parseMsg pBuffer htask =>
    rw [hother (by simp), and_true]
    simp [MovesReceived, htask]

/-- When the worker has left, all that was received before the close was parsed
exactly when the close did not come between a wait and the next flag test with
bytes to move. -/
theorem receivedParsed_iff (acts : List CliAct) (cli : WsCli)
    (hrun : Machine.exec WsCli.step .start acts = some cli) (hleft : cli.task = .left) :
    ReceivedParsed cli ↔ Machine.EachStep WsCli.step ClosesBeforeMove .start acts := by
  have h := workerInv_exec hrun
  have hclosed : cli.mbCloseFlag = true := by
    by_contra hopen
    exact h.running (by simpa using hopen) hleft
  have hiff := Machine.exec_iff WorkerInv (fun _ => True) (fun s => s.mbCloseFlag = true → MovesReceived s) ClosesBeforeMove
    (fun _ _ _ hi hs => hi.step hs) (fun _ _ _ _ => trivial) (fun _ _ _ hi _ hs => movesReceived_step hi hs)
    workerInv_start trivial hrun
  rw [imp_iff_right hclosed, and_iff_right (fun hflag => absurd hflag (by decide))] at hiff
  rw [← hiff, MovesReceived, hleft, ReceivedParsed, h.parsed (by simp [hleft])]
  simp

theorem receivedParsed_waiting :
    ∃ cli, Machine.exec WsCli.step .start
        [.pushMsg [97], .post, .testFlag, .onClose, .wait, .moveMsg, .parseMsg [], .testFlag] = some cli ∧
      (ReceivedParsed cli ↔ Machine.EachStep WsCli.step ClosesBeforeMove .start
        [.pushMsg [97], .post, .testFlag, .onClose, .wait, .moveMsg, .parseMsg [], .testFlag]) := by
  have hrun : (Machine.exec WsCli.step .start
      [.pushMsg [97], .post, .testFlag, .onClose, .wait, .moveMsg, .parseMsg [], .testFlag]).map (fun cli => cli.task) =
      some .left := by decide
  obtain ⟨cli, hcli, hleft⟩ := Option.map_eq_some_iff.mp hrun
  exact ⟨cli, hcli, receivedParsed_iff _ cli hcli hleft⟩

/-- A second chunk and the close, both while the worker parses the first. -/
def lateChunkRun : List CliAct :=
  [.pushMsg [97], .post, .testFlag, .wait, .moveMsg, .pushMsg [98], .post, .onClose, .parseMsg [], .testFlag]

theorem lateChunk_lost :
    ∃ cli, Machine.exec WsCli.step .start lateChunkRun = some cli ∧ cli.task = .left ∧
      cli.received = [[97], [98]] ∧ cli.parsed = [[97]] ∧ cli.mpInput.mpRecvBuffer = [98] ∧ ¬ReceivedParsed cli :=
  ⟨_, rfl, rfl, rfl, rfl, rfl, by decide⟩

end SrWebSocket
