import SrWebSocket.Server.Dispatch

/-! # Messages and their release

`CWsHandlerMgr::ProcMsg` owns the message that it is given and deletes it at its
end and where it drops a control message. The assertion on the handler leaves
without the `delete`, and so does every later message of that connection.
-/
namespace SrWebSocket

/-- The `CWsMsg` objects that exist; each holds a reference on the client. -/
def Session.live (σ : Session) : List ℕ := (List.range σ.created).filter fun i => i ∉ σ.deleted

/-- Every message has been deleted once and no reference is held. -/
def ReleasedOnce (σ : Session) : Prop := (∀ i < σ.created, σ.deleted.count i = 1) ∧ σ.live = []

/-- A message that is dropped or whose protocol has a handler. -/
def HasHandler (pMsg : CWsMsg) : Prop :=
  ∀ m, pMsg.mpMsg = some m → IsData m → (getHandler pMsg.mstrProtocol).isSome

/-- Only messages that exist are deleted. -/
def DeletesCreated (σ : Session) : Prop := ∀ i ∈ σ.deleted, i < σ.created

variable {env : Env} {s : Scratch} {pMsg : CWsMsg} {σ : Session}

theorem releasedOnce_iff : ReleasedOnce σ ↔ ∀ i < σ.created, σ.deleted.count i = 1 := by
  refine and_iff_left_of_imp fun h => List.filter_eq_nil_iff.mpr fun i hi => ?_
  have hcount := h i (List.mem_range.mp hi)
  have hmem : i ∈ σ.deleted := List.count_pos_iff.mp (by omega)
  simpa using hmem

theorem deletesCreated_procMsg (h : DeletesCreated σ) : DeletesCreated (σ.procMsg env s pMsg) := by
  have hold : ∀ i ∈ σ.deleted, i < σ.created + 1 := fun i hi => Nat.lt_succ_of_lt (h i hi)
  have hnew : ∀ i ∈ σ.deleted ++ [σ.created], i < σ.created + 1 :=
    List.forall_mem_append.mpr ⟨hold, by simp⟩
  unfold DeletesCreated
  rw [created_procMsg, deleted_procMsg]
  split
  · exact hnew
  · exact hnew
  · exact hold

/-- A message that is deleted keeps the others' record. -/
theorem releasedOnce_delete {τ : Session} (h : DeletesCreated σ) (hc : τ.created = σ.created + 1)
    (hd : τ.deleted = σ.deleted ++ [σ.created]) : ReleasedOnce τ ↔ ReleasedOnce σ := by
  have hzero : σ.deleted.count σ.created = 0 := List.count_eq_zero.mpr fun hm => lt_irrefl _ (h _ hm)
  rw [releasedOnce_iff, releasedOnce_iff, hc, hd]
  constructor
  · intro hall i hi
    have := hall i (by omega)
    rwa [List.count_append, List.count_singleton, if_neg (by simpa using hi.ne'), Nat.add_zero] at this
  · intro hall i hi
    rw [List.count_append, List.count_singleton]
    rcases Nat.lt_succ_iff_lt_or_eq.mp hi with hlt | rfl
    · rw [hall i hlt, if_neg (by simpa using hlt.ne')]
    · rw [hzero, if_pos (by simp)]

/-- A message that is not deleted is never released. -/
theorem not_releasedOnce {τ : Session} (h : DeletesCreated σ) (hc : τ.created = σ.created + 1)
    (hd : τ.deleted = σ.deleted) : ¬ReleasedOnce τ := by
  intro hr
  have := hr.1 σ.created (by omega)
  rw [hd, List.count_eq_zero.mpr fun hm => lt_irrefl _ (h _ hm)] at this
  exact absurd this (by decide)

/-- One message: it is released exactly when it has a handler. -/
theorem releasedOnce_reply {c : Conn} (h : DeletesCreated c.toSession) (hcr : Creation c pMsg)
    (hfault : (c.reply env s pMsg).fault = none) :
    ReleasedOnce (c.reply env s pMsg) ↔ ReleasedOnce c.toSession ∧ HasHandler pMsg := by
  have hcreated : (c.reply env s pMsg).created = c.created + 1 := created_procMsg _
  have hkeep (hp : HasHandler pMsg) (hd : (c.reply env s pMsg).deleted = c.deleted ++ [c.created]) :
      ReleasedOnce (c.reply env s pMsg) ↔ ReleasedOnce c.toSession ∧ HasHandler pMsg :=
    (releasedOnce_delete h hcreated hd).trans (and_iff_left hp).symm
  have hdeleted : (c.reply env s pMsg).deleted = _ := deleted_procMsg _
  rw [Conn.reply, fault_procMsg] at hfault
  cases hcr with
  | request hstate _ =>
    have hp : HasHandler (requestMsg c.arrived) := fun m hm => absurd hm (by simp [requestMsg])
    refine hkeep hp (hdeleted.trans ?_)
    rw [handlerMgrProcMsg_request] at hfault ⊢
    by_cases hkey : HasKey c.arrived
    · rw [if_pos hkey] at hfault ⊢
      cases hret : upgradeProcMsg env.toBaseLibrary s.stack c.arrived with
      | undefined => simp [hret] at hfault
      | returns pRet setProtocol =>
        cases pRet with
        | none => simp [hret] at hfault
        | some pResult => rfl
    · rw [if_neg hkey]
  | frame hstate m fs hm =>
    rw [handlerMgrProcMsg_frame env s _ hm] at hdeleted hfault
    by_cases hdata : IsData m
    · have hp : HasHandler (frameMsg c.mstrProtocol m) ↔ (getHandler c.mstrProtocol).isSome := by
        simp [HasHandler, frameMsg, hdata]
      rw [if_pos hdata] at hdeleted hfault
      cases hh : getHandler c.mstrProtocol with
      | none =>
        rw [hh] at hdeleted hp
        exact iff_of_false (not_releasedOnce h hcreated hdeleted) fun hr => absurd (hp.mp hr.2) (by simp)
      | some hd =>
        rw [hh] at hdeleted hfault hp
        cases hd with
        | get => exact hkeep (hp.mpr rfl) hdeleted
        | upgrade => cases hfault
        | echo => exact hkeep (hp.mpr rfl) hdeleted
    · rw [if_neg hdata] at hdeleted
      exact hkeep (fun m' hm' hd => absurd (Option.some.inj hm' ▸ hd) hdata) hdeleted

/-- In a run in which no handler failed, every message has been released once and
no reference is held exactly when each of them was dropped or had a handler. -/
theorem releasedOnce_session_iff (env : Env) (acts : List ConnAct) (c : Conn)
    (hrun : Machine.exec (Conn.step env) .start acts = some c) (hfault : c.fault = none) :
    ReleasedOnce c.toSession ↔ EveryMessage env HasHandler acts := by
  have h := session_iff DeletesCreated (fun σ => σ.fault = none) ReleasedOnce HasHandler
    (by simp [DeletesCreated, Session.start])
    (fun _ h => h) (fun c s pMsg hi _ => deletesCreated_procMsg hi)
    (fun c s pMsg hi _ hcr hj => releasedOnce_reply hi hcr hj) hrun hfault
  exact h.trans (and_iff_right ⟨by simp [Session.start], rfl⟩)

theorem releasedOnce_echo :
    ∃ c, Machine.exec (Conn.step sampleEnv) .start (textRun wsProtocolEcho (by decide) (by decide)) = some c ∧
      (ReleasedOnce c.toSession ↔
        EveryMessage sampleEnv HasHandler (textRun wsProtocolEcho (by decide) (by decide))) := by
  obtain ⟨c, hc, hfault⟩ := exec_textRun_echo
  exact ⟨c, hc, releasedOnce_session_iff sampleEnv _ c hc hfault⟩

/-- The text of a client that asks for the protocol `chat` is never released. -/
theorem chatProtocol_leaks :
    ∃ c, Machine.exec (Conn.step sampleEnv) .start (textRun (ascii "chat") (by decide) (by decide)) = some c ∧
      c.fault = none ∧ c.live = [1] ∧ ¬ReleasedOnce c.toSession := by
  have hrun : (Machine.exec (Conn.step sampleEnv) .start (textRun (ascii "chat") (by decide) (by decide))).map
      (fun c => (c.fault, c.live)) = some (none, [1]) := by decide +kernel
  obtain ⟨c, hc, hboth⟩ := Option.map_eq_some_iff.mp hrun
  obtain ⟨hfault, hlive⟩ := Prod.mk.inj hboth
  refine ⟨c, hc, hfault, hlive, fun hr => ?_⟩
  rw [hr.2] at hlive
  cases hlive

end SrWebSocket
