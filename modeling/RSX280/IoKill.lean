import Mathlib.Data.UInt
import RSX280.Attach

/-!
# Killing I/O requests (`qio.mac`, `IO.KIL`)

`IO.KIL` takes the requests of its caller off a unit: `CLNUCB` those that are queued,
`CLNCPK` the one in progress, which it leaves to the driver. The queue and the request in
progress are those of the controller, which the unit may share with others.
-/

namespace RSX280.IoKill

open Attach (Pkt)

universe u v w

/-- `E.ABOP`: operation aborted -/
def E.ABOP : ℤ := -47

/-- What the `IOKILL` entry of a driver does. -/
inductive Driver where
  /-- terminals: a busy unit ends what is in progress -/
  | tt
  /-- disks, `NL:`, `CO:` and pseudo devices: what is in progress may complete -/
  | other
  deriving DecidableEq, Repr

structure Config (T : Type u) (U : Type v) (S : Type w) extends Attach.Config T U S where
  driver : U → Driver

/-- The end of a request: what `QSTORE` tells its task, and whether its event flag is set and
its AST queued as well. The packet is freed. -/
structure Done (T : Type u) (U : Type v) where
  pkt : Pkt T U
  status : ℤ
  signal : Bool

structure Io (T : Type u) (U : Type v) (S : Type w) where
  /-- `S.PKTL` -/
  pktl : S → List (Pkt T U)
  /-- `S.CPKT` -/
  cpkt : S → Option (Pkt T U)
  /-- `S.ST` -/
  st : S → Bool
  /-- `US.BSY` -/
  bsy : U → Bool
  /-- `T.IOC` -/
  ioc : T → UInt8
  /-- the requests that have ended -/
  done : List (Done T U)
  /-- the units whose driver has been called for its next packet -/
  drioreq : List U

variable {T : Type u} {U : Type v} {S : Type w} [DecidableEq T] [DecidableEq U] [DecidableEq S]

namespace Io

variable (c : Config T U S) (k : Io T U S)

/-! ## The routines -/

/-- `ikl2` of `CLNUCB`: the end of a request that has been taken off the queue. -/
def ikl2 (t : T) (p : Pkt T U) : Io T U S :=
  { k with
    done := k.done ++ [⟨p, E.ABOP, false⟩]
    ioc := Function.update k.ioc t (k.ioc t - 1) }

/-- `ikl1` of `CLNUCB`, over the rest of the queue: what stays there, and the ends of the
others. Only the task is compared. -/
def ikl1 (t : T) : Io T U S → List (Pkt T U) → List (Pkt T U) × Io T U S
  | k, [] => ([], k)
  | k, p :: l =>
    if p.tcb = t then ikl1 t (k.ikl2 t p) l else (p :: (ikl1 t k l).1, (ikl1 t k l).2)

/-- `CLNUCB` -/
def clnucb (t : T) (u : U) : Io T U S :=
  let r := ikl1 t k (k.pktl (c.scb u))
  { r.2 with pktl := Function.update r.2.pktl (c.scb u) r.1 }

/-- `$IOEND`, without what follows when the last request of a task has ended: one that kills
requests has its own packet counted. -/
def ioend (p : Pkt T U) (e : ℤ) : Io T U S :=
  { k with
    done := k.done ++ [⟨p, e, true⟩]
    ioc := Function.update k.ioc p.tcb (k.ioc p.tcb - 1) }

/-- `IODONE` with status `e`. -/
def iodone (u : U) (e : ℤ) : Io T U S :=
  let s := c.scb u
  match k.cpkt s with
  | none => k
  | some p =>
    let k := { k with st := Function.update k.st s false, cpkt := Function.update k.cpkt s none }
    let k := k.ioend p e
    { k with drioreq := k.drioreq ++ [u] }

/-- `DRVKIL`: the `IOKILL` entry of the unit's driver. -/
def drvkil (u : U) : Io T U S :=
  match c.driver u with
  | .other => k
  | .tt => if k.bsy u then iodone c { k with bsy := Function.update k.bsy u false } u E.ABOP else k

/-- `CLNCPK` -/
def clncpk (t : T) (u : U) : Io T U S :=
  match k.cpkt (c.scb u) with
  | none => k
  | some p => if p.tcb = t then drvkil c k u else k

/-- `$QIO` of `IO.KIL` for unit `u` by task `t`: its own packet is counted meanwhile. -/
def iokil (t : T) (u : U) : Io T U S :=
  let k := { k with ioc := Function.update k.ioc t (k.ioc t + 1) }
  let k := clncpk c (clnucb c k t u) t u
  { k with ioc := Function.update k.ioc t (k.ioc t - 1) }

end Io

/-! ## What is asked for -/

/-- A request of the task for the unit. -/
def Mine (t : T) (u : U) (p : Pkt T U) : Prop := p.tcb = t ∧ p.ucb = u

instance (t : T) (u : U) (p : Pkt T U) : Decidable (Mine t u p) := by unfold Mine; infer_instance

/-- The requests of the task for the unit have ended with `E.ABOP`, each once, and no other
has; those stay where they were, in order. -/
structure Kills (c : Config T U S) (k k' : Io T U S) (t : T) (u : U) : Prop where
  pktl : k'.pktl (c.scb u) = (k.pktl (c.scb u)).filter fun p => ¬Mine t u p
  cpkt : k'.cpkt (c.scb u) = (k.cpkt (c.scb u)).filter fun p => ¬Mine t u p
  others : ∀ s, s ≠ c.scb u → k'.pktl s = k.pktl s ∧ k'.cpkt s = k.cpkt s
  done : ∃ l, k'.done = k.done ++ l ∧ (∀ d ∈ l, d.status = E.ABOP) ∧
    l.map Done.pkt = ((k.pktl (c.scb u)).filter fun p => Mine t u p) ++
      (k.cpkt (c.scb u)).toList.filter (fun p => Mine t u p) ∧
    k'.ioc = Function.update k.ioc t (k.ioc t - UInt8.ofNat l.length)

/-- The driver ends what is in progress at the unit. -/
def Ends (c : Config T U S) (k : Io T U S) (u : U) : Prop := c.driver u = .tt ∧ k.bsy u

instance (c : Config T U S) (k : Io T U S) (u : U) : Decidable (Ends c k u) := by
  unfold Ends; infer_instance

/-- When no request of the task is for another unit of the controller, except for one in
progress that the driver does not end, and the driver ends that for the unit itself. -/
def Unmixed (c : Config T U S) (k : Io T U S) (t : T) (u : U) : Prop :=
  (∀ p ∈ k.pktl (c.scb u), p.tcb = t → p.ucb = u) ∧
    ∀ p ∈ k.cpkt (c.scb u), p.tcb = t → (Ends c k u ↔ p.ucb = u)

variable {c : Config T U S} {k : Io T U S} {t : T} {u : U}

namespace Io

omit [DecidableEq U] [DecidableEq S] in
/-- The loop ends the requests of the task, in order, and leaves the others, in order. -/
theorem ikl1_eq (k : Io T U S) (l : List (Pkt T U)) :
    ikl1 t k l = (l.filter fun p => p.tcb ≠ t,
      { k with
        done := k.done ++ (l.filter fun p => p.tcb = t).map fun p => ⟨p, E.ABOP, false⟩
        ioc := Function.update k.ioc t
          (k.ioc t - UInt8.ofNat (l.filter fun p => p.tcb = t).length) }) := by
  induction l generalizing k with
  | nil => simp [ikl1]
  | cons p l ih =>
    rw [ikl1]
    by_cases hp : p.tcb = t
    · rw [if_pos hp, ih]
      have he (a : UInt8) (n : ℕ) : a - 1 - UInt8.ofNat n = a - UInt8.ofNat (n + 1) := by
        rw [UInt8.ofNat_add]
        grind
      simp [ikl2, hp, he]
    · rw [if_neg hp, ih]
      simp [hp]

/-- What is in progress stays so unless it is the task's and the driver ends it. -/
theorem clncpk_of_not (h : ∀ p ∈ k.cpkt (c.scb u), ¬(p.tcb = t ∧ Ends c k u)) :
    clncpk c k t u = k := by
  rw [clncpk]
  split
  · rfl
  · next p hp =>
    split
    · next ht =>
      have hu : ¬Ends c k u := fun hu => h p hp ⟨ht, hu⟩
      rw [drvkil]
      rcases hd : c.driver u with _ | _
      · exact if_neg fun hb => hu ⟨hd, hb⟩
      · rfl
    · rfl

theorem clncpk_of_ends {p : Pkt T U} (hp : k.cpkt (c.scb u) = some p) (ht : p.tcb = t)
    (h : Ends c k u) :
    clncpk c k t u =
      { k with
        st := Function.update k.st (c.scb u) false
        cpkt := Function.update k.cpkt (c.scb u) none
        bsy := Function.update k.bsy u false
        ioc := Function.update k.ioc t (k.ioc t - 1)
        done := k.done ++ [⟨p, E.ABOP, true⟩]
        drioreq := k.drioreq ++ [u] } := by
  obtain ⟨hd, hb⟩ := h
  simp only [clncpk, hp, drvkil, hd, hb, if_true, iodone, ioend, ht]

/-- The request in progress that `IO.KIL` ends, if any. -/
def ended (c : Config T U S) (k : Io T U S) (t : T) (u : U) : List (Pkt T U) :=
  (k.cpkt (c.scb u)).toList.filter fun p => p.tcb = t ∧ Ends c k u

/-- `CLNCPK` ends the request in progress of the task if the driver does. -/
theorem clncpk_spec (k : Io T U S) :
    (clncpk c k t u).pktl = k.pktl ∧
    (clncpk c k t u).cpkt = Function.update k.cpkt (c.scb u)
      ((k.cpkt (c.scb u)).filter fun p => ¬(p.tcb = t ∧ Ends c k u)) ∧
    (clncpk c k t u).done = k.done ++ (ended c k t u).map (fun p => ⟨p, E.ABOP, true⟩) ∧
    (clncpk c k t u).ioc =
      Function.update k.ioc t (k.ioc t - UInt8.ofNat (ended c k t u).length) := by
  by_cases h : ∃ p, k.cpkt (c.scb u) = some p ∧ p.tcb = t ∧ Ends c k u
  · obtain ⟨p, hp, ht, hu⟩ := h
    have hc : (some p).filter (fun p => ¬(p.tcb = t ∧ Ends c k u)) = none :=
      Option.filter_some_neg (by simp [ht, hu])
    rw [clncpk_of_ends hp ht hu, ended, hp, hc]
    simp [ht, hu]
  · have h' : ∀ p ∈ k.cpkt (c.scb u), ¬(p.tcb = t ∧ Ends c k u) := fun p hp h' => h ⟨p, hp, h'⟩
    have hc : (k.cpkt (c.scb u)).filter (fun p => ¬(p.tcb = t ∧ Ends c k u)) =
        k.cpkt (c.scb u) := by
      rcases hq : k.cpkt (c.scb u) with _ | p
      · rfl
      · exact Option.filter_some_pos (decide_eq_true (h' p hq))
    have he : ended c k t u = [] := List.filter_eq_nil_iff.mpr (by simpa using h')
    rw [clncpk_of_not h', hc, he]
    simp

/-- What `IO.KIL` does. -/
theorem iokil_spec (k : Io T U S) :
    (iokil c k t u).pktl =
      Function.update k.pktl (c.scb u) ((k.pktl (c.scb u)).filter fun p => p.tcb ≠ t) ∧
    (iokil c k t u).cpkt = Function.update k.cpkt (c.scb u)
      ((k.cpkt (c.scb u)).filter fun p => ¬(p.tcb = t ∧ Ends c k u)) ∧
    ∃ l, (iokil c k t u).done = k.done ++ l ∧ (∀ d ∈ l, d.status = E.ABOP) ∧
      l.map Done.pkt = ((k.pktl (c.scb u)).filter fun p => p.tcb = t) ++ ended c k t u ∧
      (iokil c k t u).ioc = Function.update k.ioc t (k.ioc t - UInt8.ofNat l.length) := by
  obtain ⟨hp, hc, hd, hi⟩ := clncpk_spec (c := c) (t := t) (u := u)
    (clnucb c { k with ioc := Function.update k.ioc t (k.ioc t + 1) } t u)
  have he : ended c (clnucb c { k with ioc := Function.update k.ioc t (k.ioc t + 1) } t u) t u =
      ended c k t u := by rw [clnucb, ikl1_eq]; rfl
  rw [he] at hd hi
  rw [iokil]
  dsimp only
  rw [hp, hc, hd, hi, clnucb, ikl1_eq]
  refine ⟨rfl, rfl, ((k.pktl (c.scb u)).filter fun p => p.tcb = t).map
    (fun p => ⟨p, E.ABOP, false⟩) ++ (ended c k t u).map (fun p => ⟨p, E.ABOP, true⟩),
    List.append_assoc .., ?_, ?_, ?_⟩
  · intro d hd
    rcases List.mem_append.mp hd with hd | hd
    · obtain ⟨p, -, rfl⟩ := List.mem_map.mp hd
      rfl
    · obtain ⟨p, -, rfl⟩ := List.mem_map.mp hd
      rfl
  · simp [Function.comp_def]
  · simp only [Function.update_self, Function.update_idem, List.length_append, List.length_map]
    congr 1
    rw [UInt8.ofNat_add]
    grind

end Io

omit [DecidableEq T] [DecidableEq U] [DecidableEq S] in
/-- Without requests for other units, the task's are those for the unit. -/
theorem Unmixed.mine_iff (h : Unmixed c k t u) {p : Pkt T U} (hp : p ∈ k.pktl (c.scb u)) :
    Mine t u p ↔ p.tcb = t := and_iff_left_of_imp (h.1 p hp)

omit [DecidableEq T] [DecidableEq U] [DecidableEq S] in
theorem Unmixed.ended_iff (h : Unmixed c k t u) {p : Pkt T U} (hp : p ∈ k.cpkt (c.scb u)) :
    p.tcb = t ∧ Ends c k u ↔ Mine t u p := and_congr_right (h.2 p hp)

theorem Unmixed.kills (h : Unmixed c k t u) : Kills c k (k.iokil c t u) t u := by
  obtain ⟨hp, hc, l, hd, hs, hl, hi⟩ := k.iokil_spec (c := c) (t := t) (u := u)
  refine ⟨?_, ?_, fun s hs => ?_, l, hd, hs, ?_, hi⟩
  · rw [hp, Function.update_self]
    refine List.filter_congr fun p hp => ?_
    simp [h.mine_iff hp]
  · rw [hc, Function.update_self]
    rcases hq : k.cpkt (c.scb u) with _ | p
    · rfl
    · simp only [Option.filter_some, h.ended_iff hq]
  · rw [hp, hc, Function.update_of_ne hs, Function.update_of_ne hs]
    exact ⟨rfl, rfl⟩
  · rw [hl, Io.ended]
    congr 1
    · refine List.filter_congr fun p hp => ?_
      simp [h.mine_iff hp]
    · refine List.filter_congr fun p hp => ?_
      rw [decide_eq_decide]
      exact h.ended_iff (Option.mem_toList.mp hp)

/-- `IO.KIL` ends the requests of its task for the unit, those queued and the one in
progress, and no others, exactly when the task has none for the other units of the
controller that it would end, and the one in progress is ended by the driver. -/
theorem kills_iff (c : Config T U S) (k : Io T U S) (t : T) (u : U) :
    Kills c k (k.iokil c t u) t u ↔ Unmixed c k t u := by
  refine ⟨fun h => ?_, Unmixed.kills⟩
  obtain ⟨hp, hc, -⟩ := k.iokil_spec (c := c) (t := t) (u := u)
  constructor
  · intro p hq ht
    by_contra hu
    have hm : p ∈ (k.pktl (c.scb u)).filter fun p => ¬Mine t u p :=
      List.mem_filter.mpr ⟨hq, decide_eq_true fun h => hu h.2⟩
    rw [← h.pktl, hp, Function.update_self] at hm
    exact of_decide_eq_true (List.mem_filter.mp hm).2 ht
  · intro p hq ht
    have he := h.cpkt
    rw [hc, Function.update_self, Option.mem_def.mp hq, Option.filter_some, Option.filter_some] at he
    by_cases hu : Ends c k u
    · by_cases hm : p.ucb = u
      · exact iff_of_true hu hm
      · simp [Mine, ht, hu, hm] at he
    · by_cases hm : p.ucb = u
      · simp [Mine, ht, hu, hm] at he
      · exact iff_of_false hu hm

/-- Two units of a disk controller, with a request of one task for each. -/
def disks : Config Bool Bool Unit :=
  ⟨⟨fun _ => (), fun _ => false, fun _ => false, fun _ => false⟩, fun _ => .other⟩

@[inherit_doc disks]
def waiting : Io Bool Bool Unit :=
  { pktl _ := [⟨1, true, false, .io 1, 0⟩, ⟨1, true, true, .io 1, 0⟩]
    cpkt _ := some ⟨1, false, false, .io 1, 0⟩
    st _ := true, bsy _ := true, ioc _ := 2, done := [], drioreq := [] }

/-- The request for the other unit is taken off as well. -/
theorem killed_for_other_unit :
    (waiting.iokil disks true false).pktl () = [] ∧
    (waiting.iokil disks true false).done.map (fun d => d.pkt.ucb) = [false, true] ∧
    ¬∀ (c : Config Bool Bool Unit) (k : Io Bool Bool Unit) (t u : Bool),
      Kills c k (k.iokil c t u) t u := by
  refine ⟨by decide, by decide, fun h => ?_⟩
  have := (kills_iff disks waiting true false).mp (h disks waiting true false)
  exact absurd (this.1 ⟨1, true, true, .io 1, 0⟩ (by decide) rfl) (by decide)

/-- The queue is left as attached units see it. -/
theorem iokil_pktl (a : U → Option T) (g : U → List (Attach.Event T)) :
    (k.iokil c t u).pktl = (Attach.Kernel.clnucb c.toConfig ⟨k.pktl, k.cpkt, a, g⟩ t u).pktl :=
  k.iokil_spec.1

end RSX280.IoKill
