import Mathlib.Data.List.Forall2
import ScEthernet.Smi.PhyAccess

/-! What the calls make of phys whose registers keep what is written. Every call of a session sets the modes it is
about in the phy it is for and leaves everything else as it was. -/
namespace ScEthernet.Smi
open Lib.ManagementBus Lib.StateRefinement

abbrev Registers := BitVec 5 → BitVec 16

def memory : Bank Registers where
  read r reg := (r reg, r)
  write r reg x := Function.update r reg x

structure Mode where
  loopback : Bool
  hundred : Bool
  autoneg : Bool
  restart : Bool
  duplex : Bool
  offersHundred : Bool
  offersTen : Bool
  deriving DecidableEq

def Mode.of (r : Registers) : Mode where
  loopback := (r 0).getLsbD 14
  hundred := (r 0).getLsbD 13
  autoneg := (r 0).getLsbD 12
  restart := (r 0).getLsbD 9
  duplex := (r 0).getLsbD 8
  offersHundred := (r 4).getLsbD 8
  offersTen := (r 4).getLsbD 6

def Call.sets : Call → Mode → Mode
  | .reg r val inning, m =>
    if inning then m
    else if r = 0 then { m with
      loopback := val.getLsbD 14, hundred := val.getLsbD 13, autoneg := val.getLsbD 12, restart := val.getLsbD 9
      duplex := val.getLsbD 8 }
    else if r = 4 then { m with offersHundred := val.getLsbD 8, offersTen := val.getLsbD 6 }
    else m
  | .config eth100, m => { m with autoneg := true, restart := true, offersHundred := eth100, offersTen := !eth100 }
  | .configNoauto eth100, m => { m with duplex := true, autoneg := false, hundred := eth100 }
  | .loopback enable, m => { m with loopback := enable, autoneg := !enable }
  | .phyId, m | .checkLinkState, m => m

def Call.effect : Call → Registers → Registers
  | .reg n val inning, r => if inning then r else Function.update r n (val.setWidth 16)
  | .config eth100, r => Function.update (Function.update r 4 (r 4 &&& 0xfc1f ||| if eth100 then 0x100 else 0x40)) 0 (r 0 ||| 0x1200)
  | .configNoauto eth100, r => Function.update r 0 ((r 0 ||| 0x100) &&& 0xcfff ||| if eth100 then 0x2000 else 0)
  | .loopback enable, r => Function.update r 0 (r 0 &&& 0xafff ||| if enable then 0x4000 else 0x1000)
  | .phyId, r | .checkLinkState, r => r

def look (phy : BitVec 5) (c : List (BitVec 5 × Registers)) : Registers :=
  (c.find? fun d => d.1 = phy).elim (fun _ => 0xFFFF) Prod.snd

def Call.answer (r : Registers) : Call → Option (BitVec 32)
  | .reg n val inning => some (if inning then val <<< 16 ||| (r n).setWidth 32 else val)
  | .phyId => some (((r 3).setWidth 32 >>> 10) <<< 16 ||| (r 2).setWidth 32)
  | .checkLinkState => some ((BitVec.ofBool ((r 1).getLsbD 2)).setWidth 32)
  | _ => none

section one
variable {phy : BitVec 5} {r : Registers} {before after : List (BitVec 5 × Registers)}

theorem findHere (first : ∀ d ∈ before, d.1 ≠ phy) :
    (before ++ (phy, r) :: after).find? (fun d => d.1 = phy) = some (phy, r) := by
  have none : before.find? (fun d => d.1 = phy) = none :=
    List.find?_eq_none.2 fun d member same => first d member (of_decide_eq_true same)
  rw [List.find?_append, none]
  simp

theorem readHere (first : ∀ d ∈ before, d.1 ≠ phy) (reg : BitVec 5) (val : BitVec 32) :
    registers memory phy (reg.setWidth 32) val smiRead (before ++ (phy, r) :: after) =
      (val <<< 16 ||| (r reg).setWidth 32, before ++ (phy, r) :: after) := by
  have same : ∀ c : List (BitVec 5 × Registers), (load memory phy reg c).2 = c := by
    intro c
    refine Eq.trans (List.map_congr_left fun d _ => ?_) (List.map_id c)
    split <;> rfl
  have back : (reg.setWidth 32).setWidth 5 = reg := by simp
  simp only [registers, back, if_true, same]
  simp [load, findHere first, memory]

theorem readClear (first : ∀ d ∈ before, d.1 ≠ phy) (reg : BitVec 5) :
    registers memory phy (reg.setWidth 32) 0 smiRead (before ++ (phy, r) :: after) =
      ((r reg).setWidth 32, before ++ (phy, r) :: after) := by
  simpa using readHere first reg 0

theorem writeHere (others : ∀ d ∈ before ++ after, d.1 ≠ phy) (reg : BitVec 5) (val : BitVec 32) :
    registers memory phy (reg.setWidth 32) val smiWrite (before ++ (phy, r) :: after) =
      (val, before ++ (phy, Function.update r reg (val.setWidth 16)) :: after) := by
  have back : (reg.setWidth 32).setWidth 5 = reg := by simp
  have kept : ∀ c : List (BitVec 5 × Registers), (∀ d ∈ c, d.1 ≠ phy) →
      c.map (store memory phy reg (val.setWidth 16)) = c := by
    intro c others
    refine Eq.trans (List.map_congr_left fun d member => ?_) (List.map_id c)
    exact if_neg (others d member)
  simp only [registers, back, Bool.false_eq_true, if_false, List.map_append, List.map_cons]
  rw [kept before fun d member => others d (List.mem_append_left _ member),
    kept after fun d member => others d (List.mem_append_right _ member)]
  simp [store, memory]

theorem callHere (others : ∀ d ∈ before ++ after, d.1 ≠ phy) (call : Call) :
    call.run (registers memory phy) (before ++ (phy, r) :: after) =
      (call.answer r, before ++ (phy, call.effect r) :: after) := by
  have first : ∀ d ∈ before, d.1 ≠ phy := fun d member => others d (List.mem_append_left _ member)
  have control : ∀ r, registers memory phy basicControlReg 0 smiRead (before ++ (phy, r) :: after) =
      ((r 0).setWidth 32, before ++ (phy, r) :: after) := fun r => readClear first 0
  have keep : ∀ r val, registers memory phy basicControlReg val smiWrite (before ++ (phy, r) :: after) =
      (val, before ++ (phy, Function.update r 0 (val.setWidth 16)) :: after) := fun r => writeHere others 0
  cases call with
  | reg reg val inning =>
    rw [Call.run, answering, bindRun]
    cases inning with
    | true => rw [readHere first reg val]; rfl
    | false => rw [writeHere others reg val]; rfl
  | phyId =>
    have lo : registers memory phy phyId1Reg 0 smiRead (before ++ (phy, r) :: after) = _ := readClear first 2
    have hi : registers memory phy phyId2Reg 0 smiRead (before ++ (phy, r) :: after) = _ := readClear first 3
    rw [Call.run, answering, bindRun, ethPhyId, bindRun, lo, bindRun, hi]
    rfl
  | checkLinkState =>
    have status : registers memory phy basicStatusReg 0 smiRead (before ++ (phy, r) :: after) = _ := readClear first 1
    have value : (r 1).setWidth 32 >>> basicStatusLinkBit &&& 1#32 = (BitVec.ofBool ((r 1).getLsbD 2)).setWidth 32 := by
      rw [BitVec.and_one_eq_setWidth_ofBool_getLsbD]
      simp [basicStatusLinkBit]
    rw [Call.run, answering, bindRun, smiCheckLinkState, bindRun, status]
    exact congrArg (fun x => (some x, before ++ (phy, r) :: after)) value
  | config eth100 =>
    have advert : registers memory phy autonegAdvertReg 0 smiRead (before ++ (phy, r) :: after) = _ := readClear first 4
    have keepAdvert : ∀ val, registers memory phy autonegAdvertReg val smiWrite (before ++ (phy, r) :: after) =
        (val, before ++ (phy, Function.update r 4 (val.setWidth 16)) :: after) := writeHere others 4
    have value : (((r 4).setWidth 32 &&& 0xfc1f ||| 1#32 <<< (if eth100 then autonegAdvert100Bit else autonegAdvert10Bit)).setWidth 16 :
        BitVec 16) = (r 4 &&& 0xfc1f ||| if eth100 then 0x100 else 0x40) := by
      cases eth100 <;> simp [autonegAdvert100Bit, autonegAdvert10Bit]
    have value' : (((r 0).setWidth 32 ||| 1#32 <<< basicControlAutonegEnBit ||| 1#32 <<< basicControlRestartAutonegBit).setWidth 16 :
        BitVec 16) = r 0 ||| 0x1200 := by
      simp [basicControlAutonegEnBit, basicControlRestartAutonegBit, BitVec.or_assoc]
    have apart : ∀ x, (Function.update r 4 x : Registers) 0 = r 0 := fun x => by
      rw [Function.update_apply, if_neg (by decide)]
    rw [Call.run, silently, bindRun, ethPhyConfig, bindRun, advert, bindRun, keepAdvert, bindRun, control, bindRun, keep, bindRun,
      keep, Function.update_idem]
    simp only [apart, value, value']
    rfl
  | configNoauto eth100 =>
    have value : ((if eth100 then ((r 0).setWidth 32 ||| 1#32 <<< basicControlFullDuplexBit) &&&
          ~~~(1#32 <<< basicControlAutonegEnBit ||| 1#32 <<< basicControl100MbpsBit) ||| 1#32 <<< basicControl100MbpsBit
        else ((r 0).setWidth 32 ||| 1#32 <<< basicControlFullDuplexBit) &&&
          ~~~(1#32 <<< basicControlAutonegEnBit ||| 1#32 <<< basicControl100MbpsBit)).setWidth 16 : BitVec 16) =
        ((r 0 ||| 0x100) &&& 0xcfff ||| if eth100 then 0x2000 else 0) := by
      cases eth100 <;> simp [basicControlFullDuplexBit, basicControlAutonegEnBit, basicControl100MbpsBit]
    rw [Call.run, silently, bindRun, ethPhyConfigNoauto, bindRun, control, bindRun, keep]
    simp only [value]
    rfl
  | loopback enable =>
    have value : (((r 0).setWidth 32 &&& ~~~(1#32 <<< basicControlAutonegEnBit ||| 1#32 <<< basicControlLoopbackBit) |||
      1#32 <<< (if enable then basicControlLoopbackBit else basicControlAutonegEnBit)).setWidth 16 : BitVec 16) =
        (r 0 &&& 0xafff ||| if enable then 0x4000 else 0x1000) := by
      cases enable <;> simp [basicControlAutonegEnBit, basicControlLoopbackBit]
    rw [Call.run, silently, bindRun, ethPhyLoopback, bindRun, control, bindRun, keep]
    simp only [value]
    rfl

end one

theorem callAbsent {phy : BitVec 5} {c : List (BitVec 5 × Registers)} (absent : ∀ d ∈ c, d.1 ≠ phy) (call : Call) :
    call.run (registers memory phy) c = (call.answer (fun _ => 0xFFFF), c) := by
  have reads : ∀ reg val, registers memory phy reg val smiRead c = (val <<< 16 ||| 0xFFFF, c) := by
    intro reg val
    have nobody : c.find? (fun d => d.1 = phy) = none :=
      List.find?_eq_none.2 fun d member same => absent d member (of_decide_eq_true same)
    have same : (load memory phy (reg.setWidth 5) c).2 = c := by
      refine Eq.trans (List.map_congr_left fun d _ => ?_) (List.map_id c)
      split <;> rfl
    simp only [registers, if_true, same]
    simp [load, nobody]
  have read : ∀ reg, registers memory phy reg 0 smiRead c = (0xFFFF, c) := fun reg => by
    simpa using reads reg 0
  have write : ∀ reg val, registers memory phy reg val smiWrite c = (val, c) := by
    intro reg val
    refine Prod.ext rfl (Eq.trans (List.map_congr_left fun d member => ?_) (List.map_id c))
    exact if_neg (absent d member)
  cases call with
  | reg reg val inning =>
    rw [Call.run, answering, bindRun]
    cases inning with
    | true => rw [reads]; rfl
    | false => rw [write]; rfl
  | phyId =>
    rw [Call.run, answering, bindRun, ethPhyId, bindRun, read, bindRun, read]
    rfl
  | checkLinkState =>
    have ones : (0xFFFF#32 >>> basicStatusLinkBit &&& 1) = (BitVec.ofBool ((0xFFFF#16).getLsbD 2)).setWidth 32 := by decide
    rw [Call.run, answering, bindRun, smiCheckLinkState, bindRun, read]
    exact congrArg (fun x => (some x, c)) ones
  | config eth100 =>
    rw [Call.run, silently, bindRun, ethPhyConfig, bindRun, read, bindRun, write, bindRun, read, bindRun, write, bindRun, write]
    rfl
  | configNoauto eth100 =>
    rw [Call.run, silently, bindRun, ethPhyConfigNoauto, bindRun, read, bindRun, write]
    rfl
  | loopback enable =>
    rw [Call.run, silently, bindRun, ethPhyLoopback, bindRun, read, bindRun, write]
    rfl

def Call.applied (call : BitVec 5 × Call) (d : BitVec 5 × Registers) : BitVec 5 × Registers :=
  if d.1 = call.1 then (d.1, call.2.effect d.2) else d

theorem appliedAddress (call : BitVec 5 × Call) (d : BitVec 5 × Registers) : (Call.applied call d).1 = d.1 := by
  unfold Call.applied
  split <;> rfl

theorem callRegisters {c : List (BitVec 5 × Registers)} (distinct : (c.map Prod.fst).Nodup) (call : BitVec 5 × Call) :
    call.2.run (registers memory call.1) c = (call.2.answer (look call.1 c), c.map (Call.applied call)) := by
  by_cases present : ∃ d ∈ c, d.1 = call.1
  · obtain ⟨⟨phy, r⟩, member, same⟩ := present
    obtain ⟨before, after, rfl⟩ := List.append_of_mem member
    cases same
    have others : ∀ d ∈ before ++ after, d.1 ≠ call.1 := by
      rw [List.map_append, List.map_cons, List.perm_middle.nodup_iff, List.nodup_cons, ← List.map_append] at distinct
      exact fun d there same => distinct.1 (List.mem_map.2 ⟨d, there, same⟩)
    have kept : ∀ ds : List (BitVec 5 × Registers), (∀ d ∈ ds, d ∈ before ++ after) → ds.map (Call.applied call) = ds := by
      intro ds inside
      refine Eq.trans (List.map_congr_left fun d member => ?_) (List.map_id ds)
      exact if_neg (others d (inside d member))
    rw [callHere others, look, findHere fun d member => others d (List.mem_append_left _ member), List.map_append, List.map_cons,
      kept before fun d => List.mem_append_left _, kept after fun d => List.mem_append_right _]
    simp [Call.applied]
  · have absent : ∀ d ∈ c, d.1 ≠ call.1 := fun d member same => present ⟨d, member, same⟩
    have nobody : c.find? (fun d => d.1 = call.1) = none :=
      List.find?_eq_none.2 fun d member same => absent d member (of_decide_eq_true same)
    have kept : c.map (Call.applied call) = c :=
      Eq.trans (List.map_congr_left fun d member => if_neg (absent d member)) (List.map_id c)
    rw [callAbsent absent, look, nobody, kept]
    rfl

def own (phy : BitVec 5) (calls : List (BitVec 5 × Call)) : List Call :=
  (calls.filter fun call => call.1 = phy).map Prod.snd

theorem effectKeeps {call : Call} {reg : BitVec 5} (unnamed : ∀ val, call ≠ .reg reg val smiWrite) (r : Registers)
    (control : reg ≠ 0) (advert : reg ≠ 4) : call.effect r reg = r reg := by
  cases call with
  | reg n val inning =>
    cases inning with
    | true => rfl
    | false =>
      have other : reg ≠ n := by
        rintro rfl
        exact unnamed val rfl
      simp only [Call.effect, Bool.false_eq_true, if_false, Function.update_apply, if_neg other]
  | _ => simp only [Call.effect, Function.update_apply, if_neg control, if_neg advert]

theorem effectMode (call : Call) (r : Registers) : Mode.of (call.effect r) = call.sets (Mode.of r) := by
  have advert : ∀ (r : Registers) x, (Function.update r 0 x : Registers) 4 = r 4 := fun r x => by
    rw [Function.update_apply, if_neg (by decide)]
  cases call with
  | reg n val inning =>
    cases inning with
    | true => rfl
    | false =>
      simp only [Mode.of, Call.effect, Call.sets, Bool.false_eq_true, if_false, Function.update_apply]
      by_cases control : n = 0
      · subst control
        simp
      · by_cases four : n = 4
        · subst four
          simp
        · rw [if_neg control, if_neg four, if_neg (Ne.symm control), if_neg (Ne.symm four)]
  | phyId => rfl
  | checkLinkState => rfl
  | config eth100 =>
    simp only [Mode.of, Call.effect, advert, Function.update_self, Call.sets]
    cases eth100 <;> simp
  | configNoauto eth100 =>
    simp only [Mode.of, Call.effect, advert, Function.update_self, Call.sets]
    cases eth100 <;> simp
  | loopback enable =>
    simp only [Mode.of, Call.effect, advert, Function.update_self, Call.sets]
    cases enable <;> simp

/- What belongs to no mode is as it was, but for the registers that plain writes name. -/
structure Kept (calls : List Call) (r r' : Registers) : Prop where
  others : ∀ reg, (∀ val, .reg reg val smiWrite ∉ calls) → reg ≠ 0 → reg ≠ 4 → r' reg = r reg
  control : (∀ val, .reg 0 val smiWrite ∉ calls) → r' 0 &&& 0x8cff = r 0 &&& 0x8cff
  advert : (∀ val, .reg 4 val smiWrite ∉ calls) → r' 4 &&& 0xfc1f = r 4 &&& 0xfc1f

theorem controlKept {call : Call} (unnamed : ∀ val, call ≠ .reg 0 val smiWrite) (r : Registers) :
    call.effect r 0 &&& 0x8cff = r 0 &&& 0x8cff := by
  cases call with
  | reg n val inning =>
    cases inning with
    | true => rfl
    | false =>
      have other : 0 ≠ n := by
        rintro rfl
        exact unnamed val rfl
      simp only [Call.effect, Bool.false_eq_true, if_false, Function.update_apply, if_neg other]
  | phyId => rfl
  | checkLinkState => rfl
  | config eth100 =>
    rw [Call.effect, Function.update_self, BitVec.and_or_distrib_right]
    simp
  | configNoauto eth100 =>
    rw [Call.effect, Function.update_self]
    cases eth100 <;> simp [BitVec.and_or_distrib_right, BitVec.and_assoc]
  | loopback enable =>
    rw [Call.effect, Function.update_self]
    cases enable <;> simp [BitVec.and_or_distrib_right, BitVec.and_assoc]

theorem advertKept {call : Call} (unnamed : ∀ val, call ≠ .reg 4 val smiWrite) (r : Registers) :
    call.effect r 4 &&& 0xfc1f = r 4 &&& 0xfc1f := by
  have advert : ∀ (r : Registers) x, (Function.update r 0 x : Registers) 4 = r 4 := fun r x => by
    rw [Function.update_apply, if_neg (by decide)]
  cases call with
  | reg n val inning =>
    cases inning with
    | true => rfl
    | false =>
      have other : 4 ≠ n := by
        rintro rfl
        exact unnamed val rfl
      simp only [Call.effect, Bool.false_eq_true, if_false, Function.update_apply, if_neg other]
  | config eth100 =>
    rw [Call.effect, advert, Function.update_self]
    cases eth100 <;> simp [BitVec.and_or_distrib_right, BitVec.and_assoc]
  | configNoauto eth100 => rw [Call.effect, advert]
  | loopback enable => rw [Call.effect, advert]
  | phyId => rfl
  | checkLinkState => rfl

theorem keptAll (calls : List Call) (r : Registers) : Kept calls r (calls.foldl (fun r call => call.effect r) r) := by
  induction calls generalizing r with
  | nil => exact ⟨fun _ _ _ _ => rfl, fun _ => rfl, fun _ => rfl⟩
  | cons call calls ih =>
    have rest := ih (call.effect r)
    have first : ∀ {reg}, (∀ val, .reg reg val smiWrite ∉ call :: calls) → ∀ val, call ≠ .reg reg val smiWrite :=
      fun unnamed val same => unnamed val (same ▸ List.mem_cons_self)
    have later : ∀ {reg}, (∀ val, .reg reg val smiWrite ∉ call :: calls) → ∀ val, .reg reg val smiWrite ∉ calls :=
      fun unnamed val member => unnamed val (List.mem_cons_of_mem call member)
    exact ⟨fun reg unnamed control advert =>
        (rest.others reg (later unnamed) control advert).trans (effectKeeps (first unnamed) r control advert),
      fun unnamed => (rest.control (later unnamed)).trans (controlKept (first unnamed) r),
      fun unnamed => (rest.advert (later unnamed)).trans (advertKept (first unnamed) r)⟩

theorem modeAll (calls : List Call) (r : Registers) :
    Mode.of (calls.foldl (fun r call => call.effect r) r) = calls.foldl (fun m call => call.sets m) (Mode.of r) := by
  induction calls generalizing r with
  | nil => rfl
  | cons call calls ih => exact (ih _).trans (by rw [effectMode]; rfl)

def left (calls : List (BitVec 5 × Call)) (c : List (BitVec 5 × Registers)) : List (BitVec 5 × Registers) :=
  c.map fun d => (d.1, (own d.1 calls).foldl (fun r call => call.effect r) d.2)

theorem leftNil (c : List (BitVec 5 × Registers)) : left [] c = c := List.map_id c

theorem leftCons (call : BitVec 5 × Call) (calls : List (BitVec 5 × Call)) (c : List (BitVec 5 × Registers)) :
    left (call :: calls) c = left calls (c.map (Call.applied call)) := by
  refine Eq.trans (List.map_congr_left fun d _ => ?_) (List.map_map ..).symm
  by_cases same : d.1 = call.1
  · simp [own, Call.applied, same]
  · simp [own, Call.applied, same, Ne.symm same]

theorem sessionRegisters {c : List (BitVec 5 × Registers)} (distinct : (c.map Prod.fst).Nodup) (calls : List (BitVec 5 × Call)) :
    (session (registers memory) calls c).2 = left calls c ∧ ∀ i (call : BitVec 5 × Call), calls[i]? = some call →
      (session (registers memory) calls c).1[i]? = some (call.2.answer (look call.1 (left (calls.take i) c))) := by
  induction calls generalizing c with
  | nil => exact ⟨(leftNil c).symm, fun i call here => by cases here⟩
  | cons call calls ih =>
    have kept : ((c.map (Call.applied call)).map Prod.fst).Nodup := by
      rw [List.map_map]
      refine Eq.mp (congrArg List.Nodup (List.map_congr_left fun d _ => ?_)) distinct
      exact (appliedAddress call d).symm
    obtain ⟨contents, answers⟩ := ih kept
    have whole : session (registers memory) (call :: calls) c =
        (call.2.answer (look call.1 c) :: (session (registers memory) calls (c.map (Call.applied call))).1,
          (session (registers memory) calls (c.map (Call.applied call))).2) := by
      rw [session, each, bindRun, callRegisters distinct, bindRun]
      rfl
    rw [whole]
    refine ⟨contents.trans (leftCons call calls c).symm, fun i other here => ?_⟩
    cases i with
    | zero =>
      cases here
      rw [List.take_zero, leftNil]
      rfl
    | succ i =>
      rw [List.take_succ_cons, leftCons]
      exact answers i other here

/-- A session over the wires: the answers come from the registers of the phy that is asked, as the calls for it so far
have left them, a phy's modes are what the calls for it say, and nothing else has changed in any phy but what plain
writes name. -/
theorem sessionModes {b : Bus Registers} (fresh : Fresh b) (calls : List (BitVec 5 × Call)) :
    let wires := (smiInit memory >>= fun _ => session (fun phy => smiReg memory ⟨phy.setWidth 32⟩) calls) b
    (∀ i (call : BitVec 5 × Call), calls[i]? = some call →
        wires.1[i]? = some (call.2.answer (look call.1 (left (calls.take i) b.contents)))) ∧
      List.Forall₂ (fun before after => after.1 = before.1 ∧ Kept (own before.1 calls) before.2 after.2 ∧
        Mode.of after.2 = (own before.1 calls).foldl (fun m call => call.sets m) (Mode.of before.2))
        b.contents wires.2.contents := by
  obtain ⟨same, contents, -⟩ := sessionOverWires memory fresh calls
  obtain ⟨all, answers⟩ := sessionRegisters fresh.distinct calls
  refine ⟨fun i call here => ?_, ?_⟩
  · rw [same]
    exact answers i call here
  · rw [contents, all, left, List.forall₂_map_right_iff]
    exact List.forall₂_same.2 fun d _ => ⟨rfl, keptAll _ d.2, modeAll _ d.2⟩

theorem sessionModesTwoPhys :
    let calls : List (BitVec 5 × Call) :=
      [(0, .config true), (31, .loopback true), (0, .checkLinkState), (7, .phyId), (31, .reg 2 7 smiWrite), (31, .reg 2 0 smiRead)]
    let b : Bus Registers := idle [(0, fun _ => 0x3100), (31, fun _ => 0x7849)]
    let wires := (smiInit memory >>= fun _ => session (fun phy => smiReg memory ⟨phy.setWidth 32⟩) calls) b
    Fresh b ∧ wires.1[2]? = some (some 0) ∧ wires.1[3]? = some (some 0x3fffff) ∧ wires.1[5]? = some (some 7) := by
  have fresh : Fresh (idle [(0, fun _ => 0x3100), (31, fun _ => 0x7849)] : Bus Registers) := idleFresh (by decide)
  have answers := (sessionModes fresh
    [(0, .config true), (31, .loopback true), (0, .checkLinkState), (7, .phyId), (31, .reg 2 7 smiWrite), (31, .reg 2 0 smiRead)]).1
  exact ⟨fresh, (answers 2 _ rfl).trans (by decide), (answers 3 _ rfl).trans (by decide), (answers 5 _ rfl).trans (by decide)⟩

end ScEthernet.Smi
