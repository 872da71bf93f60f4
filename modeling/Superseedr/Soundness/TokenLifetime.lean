import Mathlib.Data.Set.Function
import Superseedr.Model.Token

/-! # How long a token is valid

A token is accepted as long as the service holds the secret it was minted with. That secret is the current one until a
call finds it old, then the previous one until the next rotation or the end of the acceptance window, and then it is
gone. Which of these it is follows from the age of the secret, whatever was called in between.
-/

namespace Superseedr

open List TokenService Set

variable {x y : ℕ} {secret secret' : Secret} {addr addr' : IpAddr} {infoHash infoHash' : InfoHash}
  {calls : List (TokenService.Call × ℕ)} {used : Set (IpAddr × InfoHash)} {pair pair' : IpAddr × InfoHash}
  {token : Bytes}

theorem octets_length (count x : ℕ) : (octets count x).length = count := by
  induction count generalizing x with
  | zero => rfl
  | succ count ih => rw [octets, length_append, ih, length_singleton]

theorem octets_injective (count : ℕ) (boundX : x < 256 ^ count) (boundY : y < 256 ^ count)
    (same : octets count x = octets count y) : x = y := by
  induction count generalizing x y with
  | zero =>
    rw [Nat.pow_zero, Nat.lt_one_iff] at boundX boundY
    rw [boundX, boundY]
  | succ count ih =>
    rw [Nat.pow_succ] at boundX boundY
    obtain ⟨high, low⟩ := append_inj' same rfl
    have quotient := ih (Nat.div_lt_of_lt_mul (by omega)) (Nat.div_lt_of_lt_mul (by omega)) high
    have remainder : x % 256 = y % 256 := by
      have bytes := congrArg UInt8.toNat (cons.inj low).1
      rw [UInt8.toNat_ofNat', UInt8.toNat_ofNat'] at bytes
      omega
    rw [← Nat.div_add_mod x 256, ← Nat.div_add_mod y 256, quotient, remainder]

theorem IpAddr.octets_injective {a b : IpAddr} (same : a.octets = b.octets) : a = b := by
  have lengths := congrArg length same
  cases a with
  | v4 x =>
    cases b with
    | v4 y =>
      have equal := Superseedr.octets_injective 4 x.isLt y.isLt same
      rw [BitVec.eq_of_toNat_eq equal]
    | v6 y => simp only [IpAddr.octets, octets_length] at lengths; omega
  | v6 x =>
    cases b with
    | v4 y => simp only [IpAddr.octets, octets_length] at lengths; omega
    | v6 y =>
      have equal := Superseedr.octets_injective 16 x.isLt y.isLt same
      rw [BitVec.eq_of_toNat_eq equal]

theorem tokenInput_injective (same : tokenInput secret addr infoHash = tokenInput secret' addr' infoHash') :
    secret = secret' ∧ addr = addr' ∧ infoHash = infoHash' := by
  obtain ⟨head, hashes⟩ := append_inj' same (by rw [octets_length, octets_length])
  obtain ⟨secrets, addrs⟩ := append_inj head (secret.length.trans secret'.length.symm)
  exact ⟨Secret.ext secrets, IpAddr.octets_injective addrs,
    BitVec.eq_of_toNat_eq (octets_injective 20 infoHash.isLt infoHash'.isLt hashes)⟩

namespace TokenService

variable {sha1 : Bytes → Bytes} {draw : ℕ → Secret} {s : TokenService} {k started now later : ℕ}

structure Later (draw : ℕ → Secret) (k : ℕ) (s : TokenService) : Prop where
  current : ∃ i, k < i ∧ i < s.drawn ∧ s.current.secret = draw i
  previous : ∀ previous ∈ s.previous, ∃ i, k < i ∧ i < s.drawn ∧ previous.secret = draw i

inductive Fate (draw : ℕ → Secret) (k started now : ℕ) (s : TokenService) : Prop where
  | current (holds : s.current = ⟨draw k, started⟩) (last : s.drawn = k + 1)
      (young : now - started < s.config.rotationPeriod)
  | previous (holds : s.previous = some ⟨draw k, started⟩) (last : s.drawn = k + 2)
      (next : s.current.secret = draw (k + 1)) (rotated : started + s.config.rotationPeriod ≤ s.current.startedAt)
      (valid : now - started ≤ s.config.acceptanceWindow)
  | gone (old : s.config.acceptanceWindow < now - started ∨ 2 * s.config.rotationPeriod ≤ now - started)
      (later : Later draw k s)

@[simp] theorem dropExpiredPrevious_rest :
    (s.dropExpiredPrevious now).config = s.config ∧ (s.dropExpiredPrevious now).current = s.current ∧
      (s.dropExpiredPrevious now).drawn = s.drawn := by
  unfold dropExpiredPrevious
  split_ifs <;> exact ⟨rfl, rfl, rfl⟩

theorem Later.dropExpiredPrevious (later : Later draw k s) (now : ℕ) : Later draw k (s.dropExpiredPrevious now) := by
  unfold TokenService.dropExpiredPrevious
  split_ifs
  · exact ⟨later.current, nofun⟩
  · exact later

theorem fate_dropExpiredPrevious (holds : s.previous = some ⟨draw k, started⟩) (last : s.drawn = k + 2)
    (next : s.current.secret = draw (k + 1)) (rotated : started + s.config.rotationPeriod ≤ s.current.startedAt) :
    Fate draw k started now (s.dropExpiredPrevious now) := by
  unfold dropExpiredPrevious
  rw [holds, Option.any_some]
  split_ifs with expired
  · exact .gone (.inl (of_decide_eq_true expired)) ⟨⟨k + 1, by omega, by rw [last]; omega, next⟩, nofun⟩
  · exact .previous holds last next rotated (by simpa using expired)

/-- What becomes of a secret at the next call. -/
theorem Fate.rotateIfDue (fate : Fate draw k started now s) (monotone : now ≤ later)
    (begun : s.current.startedAt ≤ now) : Fate draw k started later (s.rotateIfDue draw later) := by
  unfold TokenService.rotateIfDue
  cases fate with
  | current holds last young =>
    split_ifs with fresh
    · rw [holds] at fresh
      exact .current (by simpa using holds) (by simpa using last) (by simpa using fresh)
    rw [holds] at fresh
    refine fate_dropExpiredPrevious (by rw [holds]) (by dsimp only; omega) (by dsimp only; rw [last]) ?_
    dsimp only at fresh ⊢
    omega
  | previous holds last next rotated valid =>
    split_ifs with fresh
    · exact fate_dropExpiredPrevious holds last next rotated
    refine .gone (.inr ?_) (Later.dropExpiredPrevious ⟨⟨s.drawn, by omega, by simp, rfl⟩, ?_⟩ later)
    · rw [dropExpiredPrevious_rest.1]
      dsimp only
      omega
    · intro previous isPrevious
      cases isPrevious
      exact ⟨k + 1, by omega, by dsimp only; omega, next⟩
  | gone old secrets =>
    have older : s.config.acceptanceWindow < later - started ∨ 2 * s.config.rotationPeriod ≤ later - started := by omega
    split_ifs with fresh
    · exact .gone (by simpa using older) (secrets.dropExpiredPrevious later)
    obtain ⟨i, after, drawn, same⟩ := secrets.current
    refine .gone (by simpa using older) (Later.dropExpiredPrevious ⟨⟨s.drawn, by omega, by simp, rfl⟩, ?_⟩ later)
    intro previous isPrevious
    cases isPrevious
    exact ⟨i, after, by dsimp only; omega, same⟩

structure Ready (draw : ℕ → Secret) (now : ℕ) (s : TokenService) : Prop where
  last : ∃ k, s.drawn = k + 1 ∧ s.current.secret = draw k
  previous : ∀ previous ∈ s.previous, ∃ i < s.drawn, previous.secret = draw i
  begun : s.current.startedAt ≤ now

theorem Ready.dropExpiredPrevious (ready : Ready draw now s) (monotone : now ≤ later) :
    Ready draw later (s.dropExpiredPrevious later) := by
  refine ⟨by simpa using ready.last, ?_, by simpa using ready.begun.trans monotone⟩
  rw [dropExpiredPrevious_rest.2.2]
  unfold TokenService.dropExpiredPrevious
  split_ifs
  · nofun
  · exact ready.previous

theorem Ready.rotateIfDue (ready : Ready draw now s) (monotone : now ≤ later) :
    Ready draw later (s.rotateIfDue draw later) := by
  unfold TokenService.rotateIfDue
  split_ifs
  · exact ready.dropExpiredPrevious monotone
  refine Ready.dropExpiredPrevious ⟨⟨s.drawn, rfl, rfl⟩, ?_, le_rfl⟩ le_rfl
  intro previous isPrevious
  cases isPrevious
  obtain ⟨k, last, same⟩ := ready.last
  exact ⟨k, by dsimp only; omega, same⟩

@[simp] theorem rotateIfDue_config (draw : ℕ → Secret) (s : TokenService) (now : ℕ) :
    (s.rotateIfDue draw now).config = s.config := by
  unfold rotateIfDue
  split_ifs <;> simp

theorem serve_eq (call : Call × ℕ) : s.serve sha1 draw call = s.rotateIfDue draw call.2 := by
  obtain ⟨call, now⟩ := call
  cases call <;> rfl

/-- Calls one after the other. -/
def run (sha1 : Bytes → Bytes) (draw : ℕ → Secret) (s : TokenService) (calls : List (Call × ℕ)) : TokenService :=
  calls.foldl (serve sha1 draw) s

theorem run_config (calls : List (Call × ℕ)) : (s.run sha1 draw calls).config = s.config := by
  induction calls generalizing s with
  | nil => rfl
  | cons call rest ih => rw [run, foldl_cons, ← run, ih, serve_eq, rotateIfDue_config]

/-- What every call keeps holds after a sequence of calls. -/
theorem run_rule {P : ℕ → TokenService → Prop} (sha1 : Bytes → Bytes)
    (step : ∀ {now later s}, now ≤ later → P now s → P later (s.rotateIfDue draw later)) (holds : P now s)
    (monotone : (now :: calls.map Prod.snd ++ [later]).IsChain (· ≤ ·)) :
    P later ((s.run sha1 draw calls).rotateIfDue draw later) := by
  induction calls generalizing s now with
  | nil => exact step (isChain_cons_cons.mp monotone).1 holds
  | cons call rest ih =>
    obtain ⟨first, others⟩ := isChain_cons_cons.mp monotone
    rw [run, foldl_cons, serve_eq]
    exact ih (step first holds) others

theorem rotateIfDue_young (draw : ℕ → Secret) (s : TokenService) (now : ℕ) (positive : 0 < s.config.rotationPeriod) :
    now - (s.rotateIfDue draw now).current.startedAt < s.config.rotationPeriod := by
  unfold rotateIfDue
  split_ifs with fresh
  · simpa using fresh
  · simpa using positive

def Digested (draw : ℕ → Secret) (drawn : ℕ) (used : Set (IpAddr × InfoHash)) : Set Bytes :=
  {input | ∃ i < drawn, ∃ pair ∈ used, input = tokenInput (draw i) pair.1 pair.2}

/-- Tokens for different secrets, addresses or info hashes differ. -/
theorem deriveToken_injective {drawn i j : ℕ} (injective : InjOn sha1 (Digested draw drawn used)) (isDrawn : i < drawn)
    (isDrawn' : j < drawn) (isUsed : pair ∈ used) (isUsed' : pair' ∈ used)
    (same : deriveToken sha1 (draw i) pair.1 pair.2 = deriveToken sha1 (draw j) pair'.1 pair'.2) :
    draw i = draw j ∧ pair = pair' := by
  obtain ⟨secrets, addrs, hashes⟩ :=
    tokenInput_injective (injective ⟨i, isDrawn, pair, isUsed, rfl⟩ ⟨j, isDrawn', pair', isUsed', rfl⟩ same)
  exact ⟨secrets, Prod.ext addrs hashes⟩

theorem validateFor_iff :
    (s.validateFor sha1 draw addr infoHash token now).2 = true ↔
      deriveToken sha1 (s.rotateIfDue draw now).current.secret addr infoHash = token ∨
        ∃ previous ∈ (s.rotateIfDue draw now).previous, now - previous.startedAt ≤ s.config.acceptanceWindow ∧
          deriveToken sha1 previous.secret addr infoHash = token := by
  rw [validateFor, Bool.or_eq_true, decide_eq_true_eq, Option.any_eq_true, rotateIfDue_config]
  refine or_congr_right (exists_congr fun previous => ?_)
  simp only [Option.filter_eq_some_iff, decide_eq_true_eq, Option.mem_def, and_assoc]

theorem validateFor_eq_false {P : ℕ → Prop} (current : ∃ i, P i ∧ (s.rotateIfDue draw now).current.secret = draw i)
    (previous : ∀ previous ∈ (s.rotateIfDue draw now).previous, ∃ i, P i ∧ previous.secret = draw i)
    (differ : ∀ i, P i → deriveToken sha1 (draw i) addr infoHash ≠ token) :
    (s.validateFor sha1 draw addr infoHash token now).2 = false := by
  rw [← Bool.not_eq_true, validateFor_iff]
  rintro (accepted | ⟨old, holds, -, accepted⟩)
  · obtain ⟨i, drawn, secret⟩ := current
    exact differ i drawn (secret ▸ accepted)
  · obtain ⟨i, drawn, secret⟩ := previous old holds
    exact differ i drawn (secret ▸ accepted)

/-- The secret a token was minted with is young at that time. -/
theorem Ready.minted (ready : Ready draw now (s.rotateIfDue draw now)) (positive : 0 < s.config.rotationPeriod) :
    ∃ k started, (s.rotateIfDue draw now).current.secret = draw k ∧ started ≤ now ∧
      now - started < s.config.rotationPeriod ∧ Fate draw k started now (s.rotateIfDue draw now) := by
  obtain ⟨k, drawn, secret⟩ := ready.last
  have young := rotateIfDue_young draw s now positive
  refine ⟨k, (s.rotateIfDue draw now).current.startedAt, secret, ready.begun, young, ?_⟩
  exact .current (by rw [← secret]) drawn (by rwa [rotateIfDue_config])

section Validation

theorem Fate.accepts (fate : Fate draw k started now (s.rotateIfDue draw now))
    (young : now - started < min s.config.acceptanceWindow (2 * s.config.rotationPeriod)) :
    (s.validateFor sha1 draw addr infoHash (deriveToken sha1 (draw k) addr infoHash) now).2 = true := by
  rw [validateFor_iff]
  cases fate with
  | current holds => exact .inl (by rw [holds])
  | previous holds _ _ _ valid =>
    rw [rotateIfDue_config] at valid
    exact .inr ⟨_, holds, valid, rfl⟩
  | gone old =>
    rw [rotateIfDue_config] at old
    omega

theorem Fate.drawn (fate : Fate draw k started now s) : k < s.drawn := by
  cases fate with
  | current _ last => omega
  | previous _ last => omega
  | gone _ later =>
    obtain ⟨i, after, drawn, -⟩ := later.current
    exact after.trans drawn

theorem Fate.rejects (fate : Fate draw k started now (s.rotateIfDue draw now)) (isUsed : (addr, infoHash) ∈ used)
    (injective : InjOn sha1 (Digested draw (s.rotateIfDue draw now).drawn used))
    (distinct : InjOn draw (Iio (s.rotateIfDue draw now).drawn))
    (old : max s.config.acceptanceWindow s.config.rotationPeriod < now - started) :
    (s.validateFor sha1 draw addr infoHash (deriveToken sha1 (draw k) addr infoHash) now).2 = false := by
  have drawn := fate.drawn
  cases fate with
  | current _ _ young =>
    rw [rotateIfDue_config] at young
    omega
  | previous _ _ _ _ valid =>
    rw [rotateIfDue_config] at valid
    omega
  | gone _ later =>
    refine validateFor_eq_false (later.current.imp fun _ => and_assoc.mpr)
      (fun previous holds => (later.previous previous holds).imp fun _ => and_assoc.mpr) fun i among same => ?_
    have secrets := (deriveToken_injective injective among.2 drawn isUsed isUsed same).1
    exact among.1.ne' (distinct among.2 drawn secrets)

/-- No secret of the service makes the same token for another address or info hash. -/
theorem Ready.rejects (ready : Ready draw now (s.rotateIfDue draw now))
    (injective : InjOn sha1 (Digested draw (s.rotateIfDue draw now).drawn used))
    (drawn : k < (s.rotateIfDue draw now).drawn) (isUsed : (addr, infoHash) ∈ used) (isUsed' : pair ∈ used)
    (other : pair ≠ (addr, infoHash)) :
    (s.validateFor sha1 draw pair.1 pair.2 (deriveToken sha1 (draw k) addr infoHash) now).2 = false := by
  obtain ⟨i, last, secret⟩ := ready.last
  exact validateFor_eq_false (P := (· < (s.rotateIfDue draw now).drawn)) ⟨i, by omega, secret⟩ ready.previous
    fun i isDrawn same => other (deriveToken_injective injective isDrawn drawn isUsed' isUsed same).2

end Validation

/-- A token is accepted for its address and info hash throughout the guaranteed lifetime, never after the longest one,
and never for another address or info hash, whatever the service is asked in between. -/
theorem token_lifetime {config : TokenConfig} {start minted validated : ℕ} {before between : List (Call × ℕ)}
    {service after : TokenService} (positive : 0 < config.rotationPeriod ∧ 0 < config.acceptanceWindow)
    (early : (start :: before.map Prod.snd ++ [minted]).IsChain (· ≤ ·))
    (late : (minted :: between.map Prod.snd ++ [validated]).IsChain (· ≤ ·))
    (mints : ((new draw config start).run sha1 draw before).mintFor sha1 draw addr infoHash minted = (service, token))
    (serves : service.run sha1 draw between = after) (isUsed : (addr, infoHash) ∈ used)
    (injective : InjOn sha1 (Digested draw (after.rotateIfDue draw validated).drawn used))
    (distinct : InjOn draw (Iio (after.rotateIfDue draw validated).drawn)) :
    (validated - minted + config.rotationPeriod < min config.acceptanceWindow (2 * config.rotationPeriod) →
      (after.validateFor sha1 draw addr infoHash token validated).2 = true) ∧
    (max config.acceptanceWindow config.rotationPeriod < validated - minted →
      (after.validateFor sha1 draw addr infoHash token validated).2 = false) ∧
    ∀ pair ∈ used, pair ≠ (addr, infoHash) →
      (after.validateFor sha1 draw pair.1 pair.2 token validated).2 = false := by
  have fresh : Ready draw start (new draw config start) := ⟨⟨0, rfl, rfl⟩, nofun, le_rfl⟩
  have ready := run_rule sha1 (fun monotone ready => ready.rotateIfDue monotone) fresh early
  have same : ((new draw config start).run sha1 draw before).config = config := run_config _
  cases mints
  obtain ⟨k, begun, secret, past, young, fate⟩ := ready.minted (by rw [same]; exact positive.1)
  obtain ⟨held, final⟩ := run_rule (P := fun now s => Ready draw now s ∧ Fate draw k begun now s) sha1
    (fun monotone both => ⟨both.1.rotateIfDue monotone, both.2.rotateIfDue monotone both.1.begun⟩) ⟨ready, fate⟩ late
  have sameAfter : after.config = config := by rw [← serves, run_config, rotateIfDue_config, same]
  rw [serves] at final held
  rw [same] at young
  rw [secret]
  refine ⟨fun soon => final.accepts ?_, fun expired => final.rejects isUsed injective distinct ?_, ?_⟩
  · rw [sameAfter]
    omega
  · rw [sameAfter]
    omega
  · exact fun pair isUsed' other => held.rejects injective final.drawn isUsed isUsed' other

/-- Secrets that tell how many were drawn before. -/
def countedSecret (i : ℕ) : Secret := ⟨.ofNat i :: List.replicate 31 0, rfl⟩

theorem countedSecret_injective {drawn : ℕ} (few : drawn ≤ 256) : InjOn countedSecret (Iio drawn) := by
  intro i drawnI j drawnJ same
  have bytes := congrArg UInt8.toNat (cons.inj (congrArg Secret.bytes same)).1
  rw [UInt8.toNat_ofNat', UInt8.toNat_ofNat'] at bytes
  rw [mem_Iio] at drawnI drawnJ
  omega

/-- A token is minted after one rotation and brought back after another, by its address and by a different one. -/
theorem token_lifetime_rotated : let home : IpAddr := .v4 1
    let minted :=
      ((new countedSecret ⟨4, 10⟩ 0).run id countedSecret [(.mint home 7, 1)]).mintFor id countedSecret home 7 5
    let after := minted.1.run id countedSecret [(.validate home 7 minted.2, 6)]
    (after.validateFor id countedSecret home 7 minted.2 8).2 = true ∧
      (after.validateFor id countedSecret (.v4 2) 7 minted.2 8).2 = false := by
  intro home minted after
  have lifetime := @token_lifetime home 7 univ minted.2 id countedSecret ⟨4, 10⟩ 0 5 8
    [(.mint home 7, 1)] [(.validate home 7 minted.2, 6)] minted.1 after (by decide) (by decide) (by simp) rfl rfl
    (mem_univ _) Function.injective_id.injOn (countedSecret_injective (by decide +kernel))
  exact ⟨lifetime.1 (by decide), lifetime.2.2 (.v4 2, 7) (mem_univ _) (by decide)⟩

end TokenService

end Superseedr
