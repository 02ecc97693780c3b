import Proyectos.Proof.Orion.Mode

/-!
# `orion`: reading in pieces

`orion_read` gives no more than is asked for (`fits_step`), but every read that
finds no end of file marked starts the message again, and outside stream mode
it marks the end of file for the next one. So a program that reads to the end
of file is given one piece, the message's first bytes (`delivered_reads`), which is
the message just if the first buffer has room for it (`pieces_iff`).
-/

namespace SO.Proof.Orion

open SO.Impl.Orion
open SO.Driver (Fits)

/-- Session `k` reads into valid buffers of the lengths `lens`, one after another. -/
def readsOf (k : Nat) (lens : List Nat) : List Call := lens.map fun len => .read k none {} len

/-- The bytes delivered before the first read that returns 0. -/
def delivered (ts : List (Step (Sys Vars) Call Event)) : List UInt8 :=
  (ts.takeWhile (·.out.ret ≠ 0)).flatMap (·.out.out.user)

/-- Every read stays within its buffer, and what is delivered before the end of
file is the message. -/
def GivesMessage (ts : List (Step (Sys Vars) Call Event)) : Prop :=
  (∀ t ∈ ts, Fits t) ∧ delivered ts = message

/-! ## One read -/

theorem orionRead_fits (v : Dev Vars) (buf : UserDst) (len : Nat) (off : Int) :
    ((orionRead buf len off).run { dev := v }).1.1 ≤ len ∧
      ((orionRead buf len off).run { dev := v }).2.out.user.length ≤ len := by
  generalize hn : min len v.kernelBuffer.strlen = n
  have hlen : n ≤ len := by omega
  by_cases h : v.vars.exitFlag = 0
  · by_cases hf : min buf.missed n = 0
    · rw [orionRead_ok v buf len off h hn hf]
      refine ⟨Int.ofNat_le.mpr hlen, ?_⟩
      rw [List.length_take]
      omega
    · rw [orionRead_fault v buf len off h hn hf]
      refine ⟨(show (-EFAULT : Int) ≤ 0 by decide).trans (Int.natCast_nonneg len), ?_⟩
      rw [List.length_take]
      omega
  · rw [orionRead_eof v buf len off h]
    exact ⟨Int.natCast_nonneg len, Nat.zero_le _⟩

/-- No read overruns its buffer. -/
theorem fits_step (s : Sys Vars) (c : Call) : Fits (Run.stepOf driver.step s c) := by
  cases c with
  | opn k | close k | write k at? buf => trivial
  | read k at? buf len =>
    by_cases hk : k ∈ s.opens
    · rw [Fits, Run.stepOf, Driver.step_read hk rfl]
      exact orionRead_fits s.dev buf len _
    · exact Driver.fits_of_closed hk at? buf len

variable {s : Sys Vars} {k : Nat}

/-- A read that finds no end of file marked is given the message's first bytes
and, outside stream mode, marks the end of file. -/
theorem read_first (hs : Sound s.dev) (hk : k ∈ s.opens) (he : s.dev.vars.exitFlag = 0)
    (hm : s.dev.vars.stream = 0) (len : Nat) {r : Sys Vars × Event}
    (hr : driver.step s (.read k none {} len) = r) :
    r.2.ret = (min len message.length : Nat) ∧ r.2.out.user = message.take len ∧
      k ∈ r.1.opens ∧ r.1.dev.vars.exitFlag = 1 := by
  have hn : min len s.dev.kernelBuffer.strlen = min len message.length := by
    rw [strlen_message hs.kernel]
  have hf : min 0 (min len message.length) = 0 := Nat.zero_min _
  have hst := Driver.step_read (d := driver) hk
    (orionRead_ok s.dev {} len (s.offset k none) he hn hf)
  subst hr
  rw [hst]
  refine ⟨rfl, ?_, hk, ?_⟩
  · show s.dev.kernelBuffer.bytes.take (min len message.length) = message.take len
    rw [take_message hs.kernel (min_le_right _ _), ← List.take_take, List.take_length]
  · show (armed s.dev.vars).exitFlag = 1
    rw [armed, if_pos hm]

theorem read_marked (hk : k ∈ s.opens) (he : s.dev.vars.exitFlag ≠ 0) (len : Nat) :
    (driver.step s (.read k none {} len)).2.ret = 0 := by
  rw [Driver.step_read hk (orionRead_eof s.dev {} len _ he)]

/-! ## Reading to the end of file -/

theorem delivered_two {t u : Step (Sys Vars) Call Event} (ht : t.out.ret ≠ 0) (hu : u.out.ret = 0)
    (ts : List (Step (Sys Vars) Call Event)) : delivered (t :: u :: ts) = t.out.out.user := by
  simp [delivered, ht, hu]

/-- A program that reads to the end of file makes at least two reads, and is given
the first bytes of the message: as many as its first buffer takes. -/
theorem delivered_reads (hs : Sound s.dev) (hk : k ∈ s.opens) (he : s.dev.vars.exitFlag = 0)
    (hm : s.dev.vars.stream = 0) {lens : List Nat} (hl : ∀ len ∈ lens, 0 < len)
    (hend : ∃ t ∈ Run.steps driver.step s (readsOf k lens), t.out.ret = 0) :
    delivered (Run.steps driver.step s (readsOf k lens)) = message.take (lens.headD 0) := by
  obtain ⟨t, ht, h0⟩ := hend
  cases lens with
  | nil => cases ht
  | cons len lens =>
    obtain ⟨hret, huser, hk', he'⟩ := read_first hs hk he hm len rfl
    have hpos : 0 < len := hl len List.mem_cons_self
    have hlen : 0 < message.length := by decide
    have hne : (driver.step s (.read k none {} len)).2.ret ≠ 0 := by
      rw [hret]
      omega
    cases lens with
    | nil =>
      rw [List.mem_singleton.mp ht] at h0
      exact absurd h0 hne
    | cons len' lens =>
      have hz := read_marked hk' (by rw [he']; decide) len'
      exact (delivered_two (t := Run.stepOf driver.step s (.read k none {} len)) hne hz _).trans huser

/-- Every reachable state with stream mode off and no end of file marked, and every
sequence of reads to the end of file: what is delivered is the message just if
the first buffer has room for all of it. -/
theorem pieces_iff (cs : List Call) (k : Nat) (hk : k ∈ (driver.after cs).opens)
    (hm : (driver.after cs).dev.vars.stream = 0) (he : (driver.after cs).dev.vars.exitFlag = 0)
    (lens : List Nat) (hl : ∀ len ∈ lens, 0 < len)
    (hend : ∃ t ∈ Run.steps driver.step (driver.after cs) (readsOf k lens), t.out.ret = 0) :
    GivesMessage (Run.steps driver.step (driver.after cs) (readsOf k lens)) ↔
      message.length ≤ lens.headD 0 := by
  have hfits : ∀ t ∈ Run.steps driver.step (driver.after cs) (readsOf k lens), Fits t := by
    intro t ht
    obtain ⟨js, c, ks, -, rfl⟩ := Run.mem_steps.mp ht
    exact fits_step _ c
  rw [GivesMessage, and_iff_right hfits,
    delivered_reads (keeps_sound.after cs) hk he hm hl hend, List.take_eq_self_iff]

/-- A first buffer that has room for the message. -/
theorem pieces_in_one :
    GivesMessage (Run.steps driver.step (driver.after [.opn 0]) (readsOf 0 [99, 1])) :=
  (pieces_iff [.opn 0] 0 (by decide) (by decide) (by decide) [99, 1] (by decide)
    ⟨_, List.mem_cons_of_mem _ List.mem_cons_self, by decide +kernel⟩).mpr (by decide)

/-- Two reads of one byte. -/
theorem pieces_lost :
    ¬ ∀ cs k lens, k ∈ (driver.after cs).opens → (driver.after cs).dev.vars.stream = 0 →
      (driver.after cs).dev.vars.exitFlag = 0 → (∀ len ∈ lens, 0 < len) →
      (∃ t ∈ Run.steps driver.step (driver.after cs) (readsOf k lens), t.out.ret = 0) →
      GivesMessage (Run.steps driver.step (driver.after cs) (readsOf k lens)) := by
  intro h
  have hend : ∃ t ∈ Run.steps driver.step (driver.after [.opn 0]) (readsOf 0 [1, 1]),
      t.out.ret = 0 :=
    ⟨_, List.mem_cons_of_mem _ List.mem_cons_self, by decide +kernel⟩
  have hl : ∀ len ∈ [1, 1], 0 < len := by decide
  have hd := delivered_reads (keeps_sound.after [.opn 0]) (by decide) (by decide) (by decide) hl hend
  have hg := (h [.opn 0] 0 [1, 1] (by decide) (by decide) (by decide) (by decide) hend).2
  rw [hd] at hg
  exact absurd hg (by decide)

end SO.Proof.Orion
