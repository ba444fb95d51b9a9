import ScEthernet.Full.PoolQueue
import Mathlib.Data.List.TakeWhile
import Mathlib.Data.Finset.Lattice.Lemmas
import Mathlib.Data.Finset.Insert

/-! Frees in any order. A packet freed behind the oldest is only marked; the loop of a later
mii_free swallows it. What the ring holds after a set of frees is read off the set: the freed
packets at the head are gone and their links are zero, the other freed ones have a negative
link, and no other word has changed. -/
namespace ScEthernet.Full.FreeOrder
open Lib.WordMemory Lib.UnrolledRing Malloc PoolQueue

def freeAll (p : Pool) : List Int → Option Pool
  | [] => some p
  | buf :: bufs => (miiFree p buf).bind (fun p' => freeAll p' bufs)

def linkOf (k : Pkt) : Int := k.buf - mallocHdrSize / 4

def marked (S : Finset Int) (k : Pkt) : Pkt := { k with freed := k.freed || decide (k.buf ∈ S) }

def freedMem (mem : Int → Int) (m : List Pkt) : Int → Int := fun a =>
  if a ∈ (m.takeWhile Pkt.freed).map linkOf then 0
  else if a ∈ (m.filter Pkt.freed).map linkOf then (if 0 < mem a then -mem a else mem a)
  else mem a

structure Freed (p : Pool) (q : List Pkt) (r : Ring) (vw : Nat) (S : Finset Int) (p' : Pool) : Prop where
  rep : ∃ vr', Rep p' (reclaim (q.map (marked S))) r vr' vw
  info : p'.info = p.info
  mem : p'.mem = freedMem p.mem (q.map (marked S))

section queue
variable {p : Pool} {q : List Pkt} {r : Ring} {vr vw : Nat}

theorem reclaimDrops (q : List Pkt) : reclaim q = q.dropWhile Pkt.freed := by
  induction q with
  | nil => rfl
  | cons k q ih =>
    rw [reclaim, List.dropWhile_cons]
    split
    · exact ih
    · rfl

theorem reclaimSwept (q : List Pkt) :
    ∃ gone, (∀ k ∈ gone, k.freed = true) ∧ q = gone ++ reclaim q := by
  refine ⟨q.takeWhile Pkt.freed, fun k member => ?_, ?_⟩
  · exact List.mem_takeWhile_imp member
  · rw [reclaimDrops, List.takeWhile_append_dropWhile]

theorem reclaimSettledSame (settled : Settled q) : reclaim q = q := by
  cases q with
  | nil => rfl
  | cons k q => rw [reclaim, if_neg (by simp [settled k (by simp)])]

theorem chainOtherSlot {info mem v u} {ks : List Pkt} (h : Chain r info mem v ks u) (window : u < v + r.size) :
    (ks.map linkOf).Nodup ∧ ∀ k ∈ ks, ∃ x, v ≤ x ∧ x < u ∧ linkOf k = r.place x := by
  induction h with
  | nil => simp
  | @cons v w u k ks slot rest ih =>
    have size := slot.size
    have later := chainLe rest
    have hdr : linkOf k = r.place v := by rw [linkOf, slot.buf]; simp [mallocHdrSize]
    obtain ⟨distinct, places⟩ := ih (by omega)
    refine ⟨?_, ?_⟩
    · rw [List.map_cons, List.nodup_cons]
      refine ⟨?_, distinct⟩
      intro again
      obtain ⟨k', member, same⟩ := List.mem_map.mp again
      obtain ⟨x, above, below, place⟩ := places k' member
      rw [hdr, place] at same
      exact r.placeNe (a := v) ⟨by omega, by omega⟩ ⟨by omega, by omega⟩ (by omega) same
    · intro k' member
      rcases List.mem_cons.mp member with rfl | tail
      · exact ⟨v, by omega, by omega, hdr⟩
      · obtain ⟨x, above, below, place⟩ := places k' tail
        exact ⟨x, by omega, below, place⟩

theorem linksDistinct (h : Rep p q r vr vw) : (q.map linkOf).Nodup :=
  (chainOtherSlot h.chain h.span).1

theorem markedLinks (S : Finset Int) (q : List Pkt) : (q.map (marked S)).map linkOf = q.map linkOf := by
  rw [List.map_map]; rfl

theorem linkPositive (h : Rep p q r vr vw) {k : Pkt} (member : k ∈ q) (live : k.freed = false) :
    0 < p.mem (linkOf k) := by
  obtain ⟨pre, post, rfl⟩ := List.append_of_mem member
  obtain ⟨v, w, left, slot, right⟩ := chainSlot h.chain
  have hdr : linkOf k = r.place v := by rw [linkOf, slot.buf]; simp [mallocHdrSize]
  rw [hdr, slot.link, live]
  exact placePositive h w

theorem reclaimMarked (buf : Int) (m : List Pkt) :
    reclaim (onBuf buf markFreed (reclaim m)) = reclaim (onBuf buf markFreed m) := by
  induction m with
  | nil => rfl
  | cons k m ih =>
    cases freed : k.freed with
    | false => simp [reclaim, freed]
    | true =>
      have gone : (if k.buf = buf then markFreed k else k).freed = true := by split <;> simp [markFreed, freed]
      rw [reclaim, if_pos freed, ih]
      simp only [onBuf, List.map_cons]
      rw [reclaim, if_pos gone]

theorem markedInsert (buf : Int) (S : Finset Int) (q : List Pkt) :
    q.map (marked (insert buf S)) = onBuf buf markFreed (q.map (marked S)) := by
  rw [onBuf, List.map_map]
  refine List.map_congr_left (fun k _ => ?_)
  by_cases same : k.buf = buf <;> simp [marked, markFreed, same]

theorem onBufMiddle {pre post : List Pkt} {k : Pkt} (distinct : ((pre ++ k :: post).map linkOf).Nodup)
    (f : Pkt → Pkt) : onBuf k.buf f (pre ++ k :: post) = pre ++ f k :: post := by
  have other : ∀ k' : Pkt, linkOf k' ≠ linkOf k → k'.buf ≠ k.buf := by
    intro k' ne same
    exact ne (by simp [linkOf, same])
  rw [List.map_append, List.map_cons, List.nodup_middle, List.nodup_cons, ← List.map_append] at distinct
  have outside : ∀ k' ∈ pre ++ post, (if k'.buf = k.buf then f k' else k') = k' := fun k' member =>
    if_neg (other k' (fun same => distinct.1 (List.mem_map.mpr ⟨k', member, same⟩)))
  have before := List.map_congr_left (fun k' member => outside k' (List.mem_append_left post member))
  have after := List.map_congr_left (fun k' member => outside k' (List.mem_append_right pre member))
  rw [List.map_id'] at before after
  rw [onBuf, List.map_append, List.map_cons, before, after, if_pos rfl]

theorem clearReads (mem : Int → Int) (ks : List Pkt) (a : Int) :
    clear mem ks a = if a ∈ ks.map linkOf then 0 else mem a := by
  induction ks generalizing mem with
  | nil => simp [clear]
  | cons k ks ih =>
    have next : clear mem (k :: ks) = clear (store mem (linkOf k) 0) ks := rfl
    rw [next, ih, List.map_cons]
    by_cases later : a ∈ ks.map linkOf
    · rw [if_pos later, if_pos (List.mem_cons_of_mem _ later)]
    · by_cases here : a = linkOf k
      · rw [if_neg later, here, storeSame, if_pos List.mem_cons_self]
      · rw [if_neg later, storeOther here, if_neg (by simp only [List.mem_cons, not_or]; exact ⟨here, later⟩)]

/-! One free: at the head the loop runs over the marked packets, elsewhere it marks one. -/

theorem linkOfMarked (k : Pkt) : linkOf (markFreed k) = linkOf k := rfl

section one
variable {gone post : List Pkt} {k : Pkt}

theorem sweptPrefix (swept : ∀ k ∈ gone, k.freed = true) (live : k.freed = false) (ks : List Pkt) :
    (gone ++ k :: ks).takeWhile Pkt.freed = gone := by
  rw [List.takeWhile_append_of_pos swept, List.takeWhile_cons_of_neg (by simp [live]), List.append_nil]

theorem freedMemHead (swept : ∀ k ∈ gone, k.freed = true) (live : k.freed = false) (mem : Int → Int) :
    clear (freedMem mem (gone ++ k :: post)) (k :: post.takeWhile Pkt.freed) =
      freedMem mem (gone ++ markFreed k :: post) := by
  have after : (gone ++ markFreed k :: post).takeWhile Pkt.freed =
      gone ++ markFreed k :: post.takeWhile Pkt.freed := by
    rw [List.takeWhile_append_of_pos swept, List.takeWhile_cons_of_pos rfl]
  have unmarked : (k :: post).filter Pkt.freed = post.filter Pkt.freed :=
    List.filter_cons_of_neg (by simp [live])
  have itself : (markFreed k :: post).filter Pkt.freed = markFreed k :: post.filter Pkt.freed :=
    List.filter_cons_of_pos rfl
  funext a
  rw [clearReads]
  simp only [freedMem, sweptPrefix swept live, after, List.filter_append, unmarked, itself,
    List.map_append, List.map_cons, List.mem_append, List.mem_cons, linkOfMarked]
  by_cases here : a = linkOf k
  · simp [here]
  · by_cases next : a ∈ (post.takeWhile Pkt.freed).map linkOf
    · simp only [next, or_true, if_true]
    · simp only [here, next, false_or, or_false, if_false]

theorem freedMemMiddle {k0 : Pkt} {pre : List Pkt} (swept : ∀ k ∈ gone, k.freed = true) (first : k0.freed = false)
    (live : k.freed = false) (distinct : ((gone ++ (k0 :: pre ++ k :: post)).map linkOf).Nodup)
    {mem : Int → Int} (positive : 0 < mem (linkOf k)) :
    store (freedMem mem (gone ++ (k0 :: pre ++ k :: post))) (linkOf k)
        (-freedMem mem (gone ++ (k0 :: pre ++ k :: post)) (linkOf k)) =
      freedMem mem (gone ++ (k0 :: pre ++ markFreed k :: post)) := by
  rw [← List.append_assoc, List.map_append, List.map_cons, List.nodup_middle, List.nodup_cons,
    ← List.map_append] at distinct
  have absent : ∀ ks : List Pkt, (∀ k' ∈ ks, k' ∈ gone ++ k0 :: pre ++ post) → linkOf k ∉ ks.map linkOf := by
    intro ks inside again
    obtain ⟨k', member, same⟩ := List.mem_map.mp again
    exact distinct.1 (List.mem_map.mpr ⟨k', inside k' member, same⟩)
  have notGone : linkOf k ∉ gone.map linkOf := absent gone (fun k' member => by simp [member])
  have unmarked : ∀ ks : List Pkt, (∀ k' ∈ ks, k' ∈ gone ++ k0 :: pre ++ post) →
      linkOf k ∉ (ks.filter Pkt.freed).map linkOf := fun ks inside =>
    absent _ (fun k' member => inside k' (List.mem_of_mem_filter member))
  have notPre := unmarked (k0 :: pre) (fun k' member => by simp only [List.mem_append]; exact .inl (.inr member))
  have notPost := unmarked post (fun k' member => by simp [member])
  have sweptNot := unmarked gone (fun k' member => by simp [member])
  have skip : (k :: post).filter Pkt.freed = post.filter Pkt.freed :=
    List.filter_cons_of_neg (by simp [live])
  have itself : (markFreed k :: post).filter Pkt.freed = markFreed k :: post.filter Pkt.freed :=
    List.filter_cons_of_pos rfl
  funext a
  by_cases here : a = linkOf k
  · subst here
    rw [storeSame]
    simp only [freedMem, List.cons_append, sweptPrefix swept first]
    simp only [← List.cons_append, List.filter_append, skip, itself, List.map_append, List.map_cons,
      List.mem_append, List.mem_cons, linkOfMarked, notGone, sweptNot, notPre, notPost, or_false,
      if_false, positive, if_true, or_true]
  · rw [storeOther here]
    simp only [freedMem, List.cons_append, sweptPrefix swept first]
    simp only [← List.cons_append, List.filter_append, skip, itself, List.map_append, List.map_cons,
      List.mem_append, List.mem_cons, linkOfMarked, here, false_or]

end one

theorem freedStep {S : Finset Int} {p' : Pool} (h : Rep p q r vr vw) (state : Freed p q r vw S p') {k : Pkt} (member : k ∈ q)
    (live : k.freed = false) (fresh : k.buf ∉ S) :
    ∃ p'', miiFree p' k.buf = some p'' ∧ Freed p q r vw (insert k.buf S) p'' := by
  obtain ⟨vr', rep⟩ := state.rep
  have unmarked : marked S k = k := by
    cases k; simp only [marked] at *; simp [fresh, live]
  have distinct : ((q.map (marked S)).map linkOf).Nodup := by rw [markedLinks]; exact linksDistinct h
  have all : k ∈ q.map (marked S) := List.mem_map.mpr ⟨k, member, unmarked⟩
  have positive := linkPositive h member live
  have mem := state.mem
  have whole := markedInsert k.buf S q
  have settled := reclaimSettled (q.map (marked S))
  obtain ⟨gone, swept, split⟩ := reclaimSwept (q.map (marked S))
  have waiting : k ∈ reclaim (q.map (marked S)) := by
    rw [split] at all
    rcases List.mem_append.mp all with sweptOne | rest
    · rw [swept k sweptOne] at live; cases live
    · exact rest
  obtain ⟨pre, post, queue⟩ := List.append_of_mem waiting
  rw [queue] at rep settled split
  obtain ⟨p'', vr'', returns, rep', -, info, -, stores⟩ := miiFreeExact rep settled live
  rw [split] at mem distinct
  have spot : q.map (marked (insert k.buf S)) = gone ++ (pre ++ markFreed k :: post) := by
    rw [whole, split, ← List.append_assoc]
    rw [← List.append_assoc] at distinct
    rw [onBufMiddle distinct, List.append_assoc]
  refine ⟨p'', returns, ⟨⟨vr'', ?_⟩, info.trans state.info, ?_⟩⟩
  · rw [whole, ← reclaimMarked, queue]
    exact rep'
  · rw [stores, spot, mem]
    cases pre with
    | nil => exact freedMemHead swept live p.mem
    | cons k0 pre => exact freedMemMiddle swept (settled k0 (by simp)) live distinct positive

theorem freedAll {S : Finset Int} {p' : Pool} (h : Rep p q r vr vw) (state : Freed p q r vw S p') {bufs : List Int}
    (live : ∀ buf ∈ bufs, ∃ k ∈ q, k.buf = buf ∧ k.freed = false) (fresh : ∀ buf ∈ bufs, buf ∉ S) (once : bufs.Nodup) :
    ∃ p'', freeAll p' bufs = some p'' ∧ Freed p q r vw (S ∪ bufs.toFinset) p'' := by
  induction bufs generalizing S p' with
  | nil => exact ⟨p', rfl, by simpa using state⟩
  | cons buf bufs ih =>
    rw [List.nodup_cons] at once
    obtain ⟨k, member, rfl, alive⟩ := live buf List.mem_cons_self
    obtain ⟨p1, first, state1⟩ := freedStep h state member alive (fresh _ List.mem_cons_self)
    have others : ∀ buf ∈ bufs, buf ∉ insert k.buf S := by
      intro buf inside again
      rcases Finset.mem_insert.mp again with rfl | before
      · exact once.1 inside
      · exact fresh buf (List.mem_cons_of_mem _ inside) before
    obtain ⟨p2, rest, state2⟩ := ih state1 (fun buf inside => live buf (List.mem_cons_of_mem _ inside)) others once.2
    refine ⟨p2, by rw [freeAll, first]; exact rest, ?_⟩
    rwa [List.toFinset_cons, Finset.union_insert, ← Finset.insert_union]

theorem rdptrHead {p' : Pool} {vr' : Nat} (h : Rep p' q r vr' vw) :
    p'.rdptr = (q.head?.map linkOf).getD p'.wrptr := by
  cases q with
  | nil => exact ((repEmptyIff h).mpr rfl).symm
  | cons k q =>
    cases h.chain with
    | cons slot rest => rw [h.rdptr]; simp [linkOf, slot.buf, mallocHdrSize]

theorem freedUnique {S : Finset Int} {p1 p2 : Pool} (h1 : Freed p q r vw S p1) (h2 : Freed p q r vw S p2) : p1 = p2 := by
  obtain ⟨v1, rep1⟩ := h1.rep
  obtain ⟨v2, rep2⟩ := h2.rep
  have wrptr : p1.wrptr = p2.wrptr := rep1.wrptr.trans rep2.wrptr.symm
  have rdptr : p1.rdptr = p2.rdptr := by rw [rdptrHead rep1, rdptrHead rep2, wrptr]
  have start : p1.start = p2.start := rep1.start.trans rep2.start.symm
  have atStart : p1.rdptrAtStart = p2.rdptrAtStart := by rw [rep1.atStart, rep2.atStart, rdptr, start]
  have stop : p1.stop = p2.stop := rep1.stop.trans rep2.stop.symm
  have info : p1.info = p2.info := h1.info.trans h2.info.symm
  have mem : p1.mem = p2.mem := h1.mem.trans h2.mem.symm
  cases p1; cases p2
  simp_all

theorem linkNegative (h : Rep p q r vr vw) {k : Pkt} (member : k ∈ q) (freed : k.freed = true) :
    p.mem (linkOf k) < 0 := by
  obtain ⟨pre, post, rfl⟩ := List.append_of_mem member
  obtain ⟨v, w, left, slot, right⟩ := chainSlot h.chain
  have hdr : linkOf k = r.place v := by rw [linkOf, slot.buf]; simp [mallocHdrSize]
  have positive := placePositive h w
  rw [hdr, slot.link, if_pos freed]
  omega

theorem untouched (h : Rep p q r vr vw) (settled : Settled q) : Freed p q r vw ∅ p := by
  have same : q.map (marked ∅) = q := by
    conv_rhs => rw [← List.map_id q]
    exact List.map_congr_left (fun k _ => by cases k; simp [marked])
  refine ⟨⟨vr, ?_⟩, rfl, ?_⟩
  · rw [same, reclaimSettledSame settled]; exact h
  · rw [same]
    have none : q.takeWhile Pkt.freed = [] := by
      cases q with
      | nil => rfl
      | cons k q => exact List.takeWhile_cons_of_neg (by simp [settled k (by simp)])
    funext a
    unfold freedMem
    rw [none, if_neg (by simp)]
    split
    · rename_i again
      obtain ⟨k, member, rfl⟩ := List.mem_map.mp again
      have negative := linkNegative h (List.mem_of_mem_filter member) (List.of_mem_filter member)
      rw [if_neg (by omega)]
    · rfl

theorem freedMemKept (h : Rep p q r vr vw) {S : Finset Int} {k : Pkt} (member : k ∈ q) (live : k.freed = false)
    (outside : k.buf ∉ S) {a : Int} (covered : covers p k.buf a) : freedMem p.mem (q.map (marked S)) a = p.mem a := by
  obtain ⟨pre, post, rfl⟩ := List.append_of_mem member
  obtain ⟨v, w, left, slot, right⟩ := chainSlot h.chain
  have size := slot.size
  have lo := chainLe left
  have hi := chainLe right
  have span := h.span
  obtain ⟨x, above, below, rfl⟩ := coversSlot h slot lo hi covered
  have before := (chainOtherSlot left (by omega)).2
  have after := (chainOtherSlot right (by omega)).2
  have notFreed : ∀ k' ∈ (pre ++ k :: post).map (marked S), k'.freed = true → linkOf k' ≠ r.place x := by
    intro k' inside freed
    obtain ⟨k1, there, rfl⟩ := List.mem_map.mp inside
    have link : linkOf (marked S k1) = linkOf k1 := rfl
    rw [link]
    rcases List.mem_append.mp there with early | late
    · obtain ⟨y, a, b, place⟩ := before k1 early
      rw [place]
      exact r.placeNe (a := vr) ⟨a, by omega⟩ ⟨by omega, by omega⟩ (by omega)
    · rcases List.mem_cons.mp late with rfl | later
      · simp [marked, live, outside] at freed
      · obtain ⟨y, a, b, place⟩ := after k1 later
        rw [place]
        exact r.placeNe (a := vr) ⟨by omega, by omega⟩ ⟨by omega, by omega⟩ (by omega)
  unfold freedMem
  rw [if_neg, if_neg]
  · intro again
    obtain ⟨k', inside, same⟩ := List.mem_map.mp again
    exact notFreed k' (List.mem_of_mem_filter inside) (List.of_mem_filter inside) same
  · intro again
    obtain ⟨k', inside, same⟩ := List.mem_map.mp again
    exact notFreed k' (List.takeWhile_subset _ inside) (List.mem_takeWhile_imp inside) same

theorem reclaimMarkedHead (S : Finset Int) (q : List Pkt) :
    ((reclaim (q.map (marked S))).head?).map linkOf =
      (q.find? (fun k => !k.freed && decide (k.buf ∉ S))).map linkOf := by
  induction q with
  | nil => rfl
  | cons k q ih =>
    rw [List.map_cons, reclaim, List.find?_cons]
    by_cases stays : k.freed = false ∧ k.buf ∉ S
    · have live : (marked S k).freed = false := by simp [marked, stays.1, stays.2]
      rw [live, stays.1, decide_eq_true stays.2]
      rfl
    · have gone : (marked S k).freed = true := by
        cases freed : k.freed
        · simpa [marked, freed] using stays
        · simp [marked, freed]
      have skipped : (!k.freed && decide (k.buf ∉ S)) = false := by
        cases freed : k.freed
        · simpa [freed] using stays
        · rfl
      rw [if_pos gone, ih, skipped]

end queue

theorem freedInAnyOrder {p : Pool} {q : List Pkt} {r : Ring} {vr vw : Nat} (h : Rep p q r vr vw) (settled : Settled q)
    {bufs : List Int} (live : ∀ buf ∈ bufs, ∃ k ∈ q, k.buf = buf ∧ k.freed = false) (once : bufs.Nodup) :
    ∃ p', freeAll p bufs = some p' ∧
      p'.rdptr = ((q.find? (fun k => !k.freed && decide (k.buf ∉ bufs))).map linkOf).getD p.wrptr ∧
      (p'.rdptrAtStart = if p'.rdptr = p'.start then 1 else 0) ∧
      p'.wrptr = p.wrptr ∧ p'.start = p.start ∧
      (∀ k ∈ q, k.freed = false → k.buf ∉ bufs →
        0 < p.mem (linkOf k) ∧ ∀ a, covers p k.buf a → p'.mem a = p.mem a) ∧
      ∀ order, order.Perm bufs → freeAll p order = some p' := by
  obtain ⟨p', returns, state⟩ := freedAll h (untouched h settled) live (by simp) once
  rw [Finset.empty_union] at state
  obtain ⟨vr', rep⟩ := state.rep
  refine ⟨p', returns, ?_, rep.atStart, rep.wrptr.trans h.wrptr.symm, rep.start.trans h.start.symm, ?_, ?_⟩
  · have same : (fun k : Pkt => !k.freed && decide (k.buf ∉ bufs)) =
        fun k => !k.freed && decide (k.buf ∉ bufs.toFinset) := by
      funext k; simp
    rw [rdptrHead rep, reclaimMarkedHead, same, rep.wrptr, h.wrptr]
  · intro k member alive outside
    refine ⟨linkPositive h member alive, fun a covered => ?_⟩
    rw [state.mem]
    exact freedMemKept h member alive (by simpa using outside) covered
  · intro order perm
    obtain ⟨p2, returns2, state2⟩ := freedAll h (untouched h settled)
      (fun buf (inside : buf ∈ order) => live buf (perm.mem_iff.mp inside)) (by simp) (perm.nodup_iff.mpr once)
    rw [Finset.empty_union, List.toFinset_eq_of_perm _ _ perm] at state2
    rw [returns2, freedUnique state2 state]

def twoWrapped : Pool where
  info := 0
  rdptr := 31
  wrptr := 22
  start := 1
  stop := 60
  rdptrAtStart := 0
  mem := fun a => if a = 31 then 6 else if a = 6 then 22 else if a = 60 then 1 else 0

def emptyPkt (buf : Int) : Pkt := ⟨buf, fun _ => 0, [], false⟩

theorem twoWrappedRep : Rep twoWrapped [emptyPkt 33, emptyPkt 8] ⟨1, 59, by decide⟩ 30 80 := by
  have older : Slot ⟨1, 59, by decide⟩ 0 twoWrapped.mem 30 64 (emptyPkt 33) :=
    ⟨by decide, by decide, by decide, by decide, by decide, fun f => by cases f <;> decide, fun i h => by simp [emptyPkt] at h⟩
  have younger : Slot ⟨1, 59, by decide⟩ 0 twoWrapped.mem 64 80 (emptyPkt 8) :=
    ⟨by decide, by decide, by decide, by decide, by decide, fun f => by cases f <;> decide, fun i h => by simp [emptyPkt] at h⟩
  exact ⟨by decide, by decide, by decide, by decide, by decide, by decide, by decide, by decide, by decide,
    .cons older (.cons younger (.nil 80))⟩

theorem freedInAnyOrderTwo : ∃ p', freeAll twoWrapped [8, 33] = some p' ∧ p'.rdptr = twoWrapped.wrptr ∧
    freeAll twoWrapped [33, 8] = some p' := by
  have once : ([8, 33] : List Int).Nodup := by decide
  obtain ⟨p', returns, rdptr, -, -, -, -, anyOrder⟩ := freedInAnyOrder twoWrappedRep (by simp [Settled, emptyPkt])
    (by simp [emptyPkt]) once
  exact ⟨p', returns, by rw [rdptr]; simp [emptyPkt], anyOrder [33, 8] (by decide)⟩

end ScEthernet.Full.FreeOrder
