import ScEthernet.Full.TxPinsSteps
import ScEthernet.Full.TxServerSteps

/-! Every step of a run keeps the simulation. -/
namespace ScEthernet.Full.TxRuns
open Lib.CircularFifo Lib.Runs Malloc PoolQueue TxTransfer TxServer TxPackets TxPort TxSim TxServerSteps TxPinsSteps
open TxCourse (Phase Life Course Single Inv)

section clients
variable {c : Config} {s t : State} {life : Nat → Nat → Life} {i n : Nat} {r r' : Request}

theorem knownMore (known : s.calls[n]? = some r') : (s.calls ++ [r])[n]? = some r' := by
  rw [List.getElem?_append_left (List.getElem?_eq_some_iff.mp known).1]
  exact known

theorem knownBefore (known : (s.calls ++ [r])[n]? = some r') : s.calls[n]? = some r' ∨ n = s.calls.length ∧ r' = r := by
  rw [List.getElem?_append] at known
  split at known
  · exact .inl known
  · have last := (List.getElem?_eq_some_iff.mp known).1
    have at_ : n = s.calls.length := by
      rw [List.length_singleton] at last
      omega
    subst at_
    rw [Nat.sub_self] at known
    exact .inr ⟨rfl, (Option.some.inj known).symm⟩

def called (s : State) (r : Request) : State :=
  { s with clients := set s.clients r.link (.calling s.calls.length), calls := s.calls ++ [r] }

theorem calledCourse (idle : s.clients r.link = .idle) (n : Nat) (l : Nat → Life) :
    courseOf (called s r) n l = courseOf s n l := by
  refine courseIs ?_ rfl rfl rfl rfl
  cases known : (s.calls ++ [r])[n]? with
  | none =>
    have none : s.calls[n]? = none := by
      rw [List.getElem?_eq_none_iff, List.length_append] at known
      exact List.getElem?_eq_none_iff.mpr (by omega)
    simp only [phaseIn, called, known, none]
  | some r' =>
    simp only [phaseIn, called, known]
    rcases knownBefore known with old | ⟨rfl, rfl⟩
    · have below := (List.getElem?_eq_some_iff.mp old).1
      have away : s.calls.length ≠ n := by omega
      simp only [old]
      by_cases same : r'.link = r.link
      · rw [same, setSame, idle]
        simp [phaseOf, away]
      · rw [setOther same]
    · rw [setSame, List.getElem?_eq_none (Nat.le_refl _)]
      simp [phaseOf]

theorem callKeeps (sim : Sim c s life) (idle : s.clients r.link = .idle) (single : Single c r) : Sim c (called s r) life where
  links k n inside := by
    by_cases same : k = r.link
    · simp only [called, same, setSame, Client.call, Option.some.injEq] at inside
      subst inside
      exact ⟨r, List.getElem?_concat_length, same.symm⟩
    · simp only [called, setOther same] at inside
      obtain ⟨r', known, link⟩ := sim.links k n inside
      exact ⟨r', knownMore known, link⟩
  courses n r' known := by
    rw [calledCourse idle]
    rcases knownBefore known with old | ⟨rfl, rfl⟩
    · exact sim.courses n r' old
    · rw [sim.unknown _ (List.getElem?_eq_none (Nat.le_refl _))]
      exact ⟨single, TxCourse.invInitial⟩
  unknown n none := by
    rw [calledCourse idle]
    refine sim.unknown n ?_
    have beyond := List.getElem?_eq_none_iff.mp none
    simp only [called, List.length_append] at beyond
    exact List.getElem?_eq_none_iff.mpr (by omega)
  stray := sim.stray
  pending k cmd pending := by
    refine (sim.pending k cmd pending).imp_left ?_
    rintro ⟨n, r', client, known, cmds⟩
    refine ⟨n, r', (setOther ?_ _).trans client, knownMore known, cmds⟩
    rintro rfl
    rw [idle] at client
    cases client
  loading := by
    have loading := sim.loading
    unfold Loading at loading ⊢
    cases server : s.server <;> simp only [called, server] at loading ⊢
    · obtain ⟨client, r', known, words⟩ := loading
      refine ⟨(setOther ?_ _).trans client, r', knownMore known, words⟩
      rintro rfl
      rw [idle] at client
      cases client
    · obtain ⟨r', known, rest⟩ := loading
      exact ⟨r', knownMore known, rest⟩
  pools := sim.pools
  fifos := sim.fifos
  ports p := portCalls (sim.ports p) fun _ _ known => knownMore known

theorem acceptKeeps (sim : Sim c s life) (server : s.server = .select) (client : s.clients i = .calling n)
    (known : s.calls[n]? = some r) :
    Sim c { s with clients := set s.clients i (.transferring n), pendingCmd := set s.pendingCmd i (some r.cmd)
                   server := .replying 0 } life := by
  have same : ∀ m, courseOf { s with clients := set s.clients i (.transferring n), pendingCmd := set s.pendingCmd i (some r.cmd)
                                     server := .replying 0 } m (life m) = courseOf s m (life m) := by
    intro m
    refine courseIs ?_ (congrFun (congrArg nextOf server.symm) m) rfl rfl rfl
    cases known' : s.calls[m]? with
    | none => simp only [phaseIn, known']
    | some r' =>
      simp only [phaseIn, known']
      by_cases same : r'.link = i
      · rw [same, setSame, client]
        simp [phaseOf]
      · rw [setOther same]
  refine simKeeps sim rfl (fun k m inside => ?_) (fun m _ _ => .inl (same m)) (fun m _ => same m) (fun a => .inl)
    (fun k cmd pending => .inl ?_) trivial sim.pools sim.fifos fun p => portKept (sim.ports p) rfl ?_
  · by_cases here : k = i
    · simp only [here, setSame] at inside
      rw [here, client]
      exact inside
    · simpa only [setOther here] using inside
  · by_cases here : k = i
    · simp only [here, setSame, Option.some.injEq] at pending ⊢
      exact ⟨n, r, rfl, known, pending⟩
    · simp only [setOther here] at pending ⊢
      exact pendingClient sim server rfl pending
  · exact { pools := fun _ => rfl, owner := rfl, pins := rfl, tsQueue := rfl, found := by rw [server]; rfl
            release := by rw [server]; rfl, life := fun _ => rfl }

theorem selectKeeps (sim : Sim c s life) (server : s.server = .select) (enabled : Nat → Bool) :
    Sim c { s with server := .replying 0, enabled := enabled } life :=
  simPlain sim (by rw [server]; trivial) (.replying 0) trivial (sameQuiet sim)

theorem stepKeeps (sim : Sim c s life) (e : Event) (orderly : Orderly c s e) (taken : step c s e = some t) :
    ∃ life', Sim c t life' := by
  cases e with
  | call r =>
    obtain ⟨idle, -, rfl⟩ := callMoves taken
    exact ⟨life, callKeeps sim idle orderly⟩
  | accept i =>
    obtain ⟨n, r, server, client, -, -, known, rfl⟩ := acceptMoves taken
    exact ⟨life, acceptKeeps sim server client known⟩
  | command i =>
    obtain ⟨server, rfl⟩ := commandMoves taken
    exact ⟨life, selectKeeps sim server s.enabled⟩
  | timer =>
    obtain ⟨server, rfl⟩ := timerMoves taken
    exact ⟨life, selectKeeps sim server s.enabled⟩
  | default =>
    obtain ⟨server, -, rfl⟩ := defaultMoves taken
    exact ⟨life, selectKeeps sim server _⟩
  | server => exact serverKeeps sim orderly taken
  | pins p held time => exact pinsKeeps sim orderly (pinsMoves taken).2

theorem simInitial (c : Config) (mem : Nat → Bool → Int → Int) (mempool : Nat → Bool → Nat) (memsize : Bool → Nat) :
    Sim c (initial mem mempool memsize) (fun _ _ => .absent) where
  links _ _ inside := by cases inside
  courses _ _ known := by cases known
  unknown _ _ := rfl
  stray _ member := by cases member
  pending _ _ some := by cases some
  loading := trivial
  pools p hp := TxPool.invInitial (mem p hp) (mempool p hp) (memsize hp)
  fifos _ := ⟨(by decide : 0 < macMaxEntries), (by decide : 0 < macMaxEntries)⟩
  ports p :=
    { queues := ⟨fun _ _ member => (by cases member), fun _ => List.nodup_nil, fun _ _ member => (by cases member)⟩
      lives := fun _ _ member => (by cases member)
      stages := fun _ _ member => (by cases member)
      heads := fun _ _ some => by rcases some with token | held <;> contradiction
      apart := fun _ held => by contradiction
      ids := fun _ _ member => (by cases member)
      once := List.nodup_nil
      served := fun _ same => (by cases same)
      placed := fun _ present => absurd rfl present }

end clients

/- Memory of zeros and pools of 600 words. -/
def zeros : State := initial (fun _ _ _ => 0) (fun _ _ => 0) (fun _ => 600)

def twoPorts : Config := ⟨2, 1, false, true⟩

end ScEthernet.Full.TxRuns
