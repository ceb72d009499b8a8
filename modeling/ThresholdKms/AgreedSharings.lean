import ThresholdKms.PrssKeyAgreement
import ThresholdKms.TripleRun

/-!
# Shares from agreed keys

The keys that honest parties agree on are those of one assignment, whatever the corrupt parties
send. Every setup made from them is therefore a part of one ideal setup, and the shares that honest
parties draw lie on one polynomial.
-/

open Polynomial

namespace ThresholdKms

namespace AgreeRandomRun

variable {O C : Type} [DecidableEq C] {run : AgreeRandomRun O C}
  (ht : run.threshold < run.numParties)
include ht

/-- The honest members of a set agree on its key. -/
theorem exists_key_eq_map : ∃ key : List Role → PrfKey, ∀ i ∈ run.honest, ∀ ars,
    run.execute i = .ok ars → ars = (run.setsOf i).map key := by
  classical
  refine ⟨fun aset => if h : ∃ p ∈ aset, p ∈ run.honestParties then run.passiveKey h.choose aset
    else 0, ?_⟩
  intro i hi ars hexec
  obtain ⟨hpassive, hcompare⟩ := execute_eq_ok ht hexec
  rw [eq_map_passiveKey ht hpassive]
  refine List.map_congr_left (fun aset haset => ?_)
  obtain ⟨hcreated, hmem⟩ := List.mem_filter.mp haset
  have hia : i ∈ aset := of_decide_eq_true hmem
  have hexists : ∃ p ∈ aset, p ∈ run.honestParties := ⟨i, hia, Finset.mem_inter.mpr
    ⟨hi, List.mem_toFinset.mpr ((mem_combinations.mp hcreated).1.subset hia)⟩⟩
  rw [dif_pos hexists]
  exact (hcompare aset haset _ hexists.choose_spec.1 hexists.choose_spec.2).symm

variable {z : BaseRing} {e : ExtensionDegree} {F : Type} [Field F] [DecidableEq F] [G2p e F]

/-- The next shares of the honest parties with a setup lie on one polynomial, and their next zero
shares on one that is zero at zero. -/
theorem exists_sharings_of_execute (aes128 : PrfKey → AesBlock → AesBlock) (sid : SessionId)
    (counters : PRSSCounters) (hprss : counters.prssCtr < 2 ^ 112)
    (hprzs : counters.przsCtr < 2 ^ 104) :
    ∃ f g : (GaloisRing z.bits e)[X], f.natDegree ≤ run.threshold ∧
      g.natDegree ≤ 2 * run.threshold ∧ g.eval 0 = 0 ∧
      ∀ i : Fin run.numParties, (i + 1 : ℕ) ∈ run.honest → ∀ ars setup,
        run.execute (i + 1) = .ok ars →
        prssInit F (partyRoles run.numParties) run.threshold (i + 1) ars = .ok setup →
        let state := { setup.newPrssSessionState aes128 sid with counters := counters }
        (∃ s, prssNext state (i + 1) = .ok (f.eval (partyPoint i), s)) ∧
          ∃ s, przsNext state (i + 1) run.threshold = .ok (g.eval (partyPoint i), s) := by
  obtain ⟨key, hkey⟩ := exists_key_eq_map ht
  let keys : PrssKeys := ⟨aes128, key, sid⟩
  by_cases hn : run.numParties < 2 ^ e.deg
  · refine ⟨prssSharing keys run.numParties run.threshold counters.prssCtr,
      przsSharing keys run.numParties run.threshold counters.przsCtr,
      natDegree_prssSharing_le keys ht.le _, natDegree_przsSharing_le keys ht.le _,
      eval_zero_przsSharing keys F hn _, ?_⟩
    intro i hi ars setup hexec hinit
    rw [hkey _ hi ars hexec] at hinit
    obtain ⟨-, -, rfl⟩ := (prssInit_eq_ok_iff keys F z ht.le _ setup).mp hinit
    exact ⟨⟨_, prssNext_of_lt keys counters hprss i⟩, _, przsNext_of_lt keys counters hprzs i⟩
  · -- With too many parties nobody has a setup.
    refine ⟨0, 0, by simp, by simp, eval_zero, fun i hi ars setup hexec hinit => absurd ?_ hn⟩
    rw [hkey _ hi ars hexec] at hinit
    exact ((prssInit_eq_ok_iff keys F z ht.le _ setup).mp hinit).2.1

omit ht in
theorem exists_sharings_longLists :
    ∃ f : (GaloisRing BaseRing.z64.bits .three)[X], f.natDegree ≤ 1 ∧
      ∃ setup : PRSSSetup BaseRing.z64.bits .three,
        prssInit GF8 (partyRoles 3) 1 2 [3, 7] = .ok setup ∧
        ∃ s, prssNext (setup.newPrssSessionState xorKeys.aes128 7) 2 =
          .ok (f.eval (partyPoint (1 : Fin 3)), s) := by
  obtain ⟨f, g, hf, -, -, h⟩ := exists_sharings_of_execute (z := .z64) (e := .three) (F := GF8)
    (show longLists.threshold < 3 by decide) xorKeys.aes128 7 ⟨0, 0, 0⟩ (by norm_num) (by norm_num)
  have hinit := (prssInit_eq_ok_iff ⟨xorKeys.aes128, fun s => if s = [1, 2] then 3 else 7, 7⟩ GF8 .z64
    (n := 3) (t := 1) (e := .three) (by decide) 2 _).mpr ⟨by decide, by decide, rfl⟩
  exact ⟨f, hf, _, hinit, (h (1 : Fin 3) (by decide) [3, 7] _ (by decide +kernel) hinit).1⟩

end AgreeRandomRun

end ThresholdKms
