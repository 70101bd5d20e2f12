import Kascov.Passport.Law
import Kascov.Passport.Sha256

/-!
# When every published path verifies

A file keeps its law exactly if every claim is portable: the bot rebuilds an object before it
writes it, and a JS object lists its index keys first; Python sorts by code points and raises
on an unpaired surrogate.  Numbers do no harm, since every program reads what was published.
-/

namespace Kascov

open Sha256 (sha256Hex)

theorem passport_law_iff (sha256 : Bytes → Hex64) {seen : Set Bytes}
    (hfree : Set.InjOn sha256 seen) (claims : Claims)
    (hseen : ∀ x ∈ passportInputs sha256 claims, x ∈ seen) :
    PassportLaw sha256 seen claims ↔ ∀ c ∈ claims.val, c.portable = true := by
  unfold passportInputs at hseen
  dsimp only at hseen
  rw [List.forall_mem_append, List.forall_mem_append] at hseen
  obtain ⟨⟨hleaves, hroot⟩, hchecks⟩ := hseen
  have hchecks : ∀ entry ∈ (buildPassportFile sha256 claims).claims, ∀ v : Verifier,
      ∀ x ∈ v.hashed sha256 entry.1.published (proofValue entry.2), x ∈ seen := by
    intro entry hentry v x hx
    refine hchecks x (List.mem_flatMap.mpr ⟨entry, hentry, List.mem_flatMap.mpr ⟨v, ?_, hx⟩⟩)
    cases v <;> simp
  have hagain : ∀ c ∈ claims.val, botBytes c.published = botBytes c :=
    fun c hc ↦ botBytes_published (claims.property c hc)
  constructor
  · intro law c hc
    obtain ⟨proof, hentry⟩ := exists_entry sha256 hc
    have hform := fun v ↦ form_of_accepts hfree hentry (hagain c hc) (hchecks _ hentry)
      (law.verifies _ hentry v)
    exact (forms_iff (claims.property c hc)).mp ⟨Option.some.inj (hform .js), hform .py⟩
  · intro h
    have hforms : ∀ c ∈ claims.val, jsBytes c.published = botBytes c ∧
        pyBytes c.published = some (botBytes c) :=
      fun c hc ↦ (forms_iff (claims.property c hc)).mpr (h c hc)
    exact {
      order := fun claims' hperm ↦ merkleRoot_perm sha256 hperm claims.property
      verifies := by
        intro entry hentry v
        have hc := (mem_buildPassportFile sha256 hentry).1
        obtain ⟨hjs, hpy⟩ := hforms entry.1 hc
        apply accepts_of_form hentry
        cases v with
        | bot => exact congrArg some (hagain entry.1 hc)
        | js => exact congrArg some hjs
        | py => exact hpy
      forms := fun c hc ↦ ⟨hagain c hc, hforms c hc⟩
      proves := fun v claim proof bytes hform hhashed hlen hlens haccepts ↦
        published_of_accepts hfree hform hleaves hroot hhashed hlen hlens haccepts }

/-- A role badge of one member, `{"type":"role","id":7}`. -/
def roleClaim : Claim :=
  .obj [(jsUnits "type".toList, .str (jsUnits "role".toList)),
    (jsUnits "id".toList, .num (.int 7))]

theorem passport_law_role :
    Set.InjOn sha256Hex {botBytes roleClaim} ∧
      PassportLaw sha256Hex {botBytes roleClaim} ⟨[roleClaim], by decide +kernel⟩ := by
  have hfree : Set.InjOn sha256Hex {botBytes roleClaim} := Set.injOn_singleton _ _
  refine ⟨hfree, (passport_law_iff sha256Hex hfree ⟨[roleClaim], by decide +kernel⟩ ?_).mpr ?_⟩
  · have hinputs : ∀ x ∈ passportInputs sha256Hex [roleClaim], x = botBytes roleClaim := by
      decide +kernel
    exact hinputs
  · decide +kernel

/-- Two index keys, `{"9":0,"10":0}`. -/
def indexClaim : Claim :=
  .obj [(jsUnits "9".toList, .num (.int 0)), (jsUnits "10".toList, .num (.int 0))]

/-- The bot writes the keys upwards, both clients write `"10"` first. -/
theorem passport_law_index :
    Set.InjOn sha256Hex {x | x ∈ passportInputs sha256Hex [indexClaim]} ∧
      ¬PassportLaw sha256Hex {x | x ∈ passportInputs sha256Hex [indexClaim]}
        ⟨[indexClaim], by decide +kernel⟩ := by
  have hinputs : ∀ x ∈ passportInputs sha256Hex [indexClaim],
      x = botBytes indexClaim ∨ x = jsBytes indexClaim := by decide +kernel
  have hhash : sha256Hex (botBytes indexClaim) ≠ sha256Hex (jsBytes indexClaim) := by
    decide +kernel
  constructor
  · rintro x hx y hy h
    rcases hinputs x hx with rfl | rfl
    · rcases hinputs y hy with rfl | rfl
      · rfl
      · exact absurd h hhash
    · rcases hinputs y hy with rfl | rfl
      · exact absurd h.symm hhash
      · rfl
  · intro law
    have hjs : ¬∀ entry ∈ (buildPassportFile sha256Hex [indexClaim]).claims,
        verifyBadge sha256Hex entry.1.published (proofValue entry.2)
          (rootValue (buildPassportFile sha256Hex [indexClaim]).merkleRoot) = true := by
      decide +kernel
    exact hjs fun entry hentry ↦ law.verifies entry hentry .js

end Kascov
