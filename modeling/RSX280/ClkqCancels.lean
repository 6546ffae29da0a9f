import RSX280.ClkqTimes

/-!
# Cancelled mark-time requests

What `CMKT` takes out of the clock queue, and what its description says.
-/

namespace RSX280.Clkq

open Sched Clock

universe u

variable {T : Type u} [DecidableEq T] {c : Clock T} {t : T} {efn ast : ℕ} {p : Packet T}

/-- The packets that the description of `CMKT` names: those with the flag or with the AST routine, or all
if neither is given. -/
def asked (t : T) (efn ast : ℕ) (p : Packet T) : Bool :=
  p.tcb = t &&
    match p.req with
    | .mkt e a => (efn = 0 && ast = 0) || (efn ≠ 0 && e = efn) || (ast ≠ 0 && a = ast)
    | .run .. => false

/-- The packets that are asked for are taken out and freed, and the others keep their order. -/
def Cancels (c : Clock T) (t : T) (efn ast : ℕ) : Prop :=
  (c.cmkt efn ast).clkq = c.clkq.filter (fun p => !asked t efn ast p) ∧
    (c.cmkt efn ast).log = (c.clkq.filter (asked t efn ast)).map (fun p => .free p.id) ++ c.log

/-- A packet with the flag, but with another AST routine than that given. -/
def Ignored (t : T) (efn ast : ℕ) (p : Packet T) : Prop :=
  efn ≠ 0 ∧ ast ≠ 0 ∧ p.tcb = t ∧ ∃ a, p.req = .mkt efn a ∧ a ≠ ast

/-- The code takes the packets that are asked for, but for the ignored ones. -/
theorem cmatch_iff : cmatch t true efn ast p = true ↔
    asked t efn ast p = true ∧ ¬Ignored t efn ast p := by
  obtain ⟨i, tcb, time, req⟩ := p
  unfold cmatch asked Ignored
  cases req with
  | run usr grp rsi => simp
  | mkt e a =>
    by_cases ht : tcb = t
    · by_cases ha : ast = 0
      · by_cases he : efn = 0
        · simp [ht, ha, he]
        · simp [ht, ha, he]
      · by_cases he : efn = 0
        · simp [ht, ha, he]
        · by_cases hea : e = efn
          · by_cases haa : a = ast
            · simp [ht, ha, he, hea, haa]
            · simp [ht, ha, he, hea, haa]
          · simp [ht, ha, he, hea]
    · simp [ht]

theorem cmkt_eq (hc : c.k.ctcb = some t) (efn ast : ℕ) :
    (c.cmkt efn ast).clkq = c.clkq.filter (fun p => !cmatch t true efn ast p) ∧
      (c.cmkt efn ast).log = (c.clkq.filter (cmatch t true efn ast)).map (fun p => .free p.id) ++ c.log := by
  unfold Clock.cmkt
  rw [hc]
  exact ⟨(List.filter_append _ _).symm, rfl⟩

/-- `CMKT` does what it says unless a packet of the task has the flag and another AST routine, and both are
given. -/
theorem cancels_iff (hc : c.k.ctcb = some t) :
    Cancels c t efn ast ↔ ∀ p ∈ c.clkq, ¬Ignored t efn ast p := by
  obtain ⟨hq, hlog⟩ := cmkt_eq hc efn ast
  constructor
  · rintro ⟨hq', -⟩ p hp hign
    -- the packet would stay in the queue
    have hasked : asked t efn ast p = true := by
      obtain ⟨he, -, ht, a, hreq, -⟩ := hign
      unfold asked
      rw [hreq]
      simp [ht, he]
    have hstay : p ∈ (c.cmkt efn ast).clkq := by
      rw [hq, List.mem_filter]
      refine ⟨hp, ?_⟩
      cases hm : cmatch t true efn ast p with
      | false => rfl
      | true => exact absurd hign (cmatch_iff.mp hm).2
    rw [hq', List.mem_filter, hasked] at hstay
    exact Bool.noConfusion hstay.2
  · intro h
    have heq : ∀ p ∈ c.clkq, cmatch t true efn ast p = asked t efn ast p := by
      intro p hp
      rw [Bool.eq_iff_iff, cmatch_iff]
      exact and_iff_left (h p hp)
    refine ⟨hq.trans (List.filter_congr fun p hp => by rw [heq p hp]), ?_⟩
    rw [hlog, List.filter_congr heq]

/-- Three requests: with flag 3 and AST 512, with flag 3 only, and with AST 512 only. -/
def three : Clock (Fin 2) :=
  clock.runAll [.mrkt 3 512 1 1 true, .mrkt 3 0 2 1 true, .mrkt 0 512 3 1 true] started

theorem cancels_iff_three : Cancels three 0 3 0 :=
  (cancels_iff (by decide)).mpr fun p _ h => h.2.1 rfl

/-- The request with the flag only stays when both are given. -/
theorem ignored_three : (three.cmkt 3 512).clkq.map Packet.id = [1] ∧
    (three.clkq.filter (asked 0 3 512)).map Packet.id = [0, 1, 2] := by
  decide

end RSX280.Clkq
