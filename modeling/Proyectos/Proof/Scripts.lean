import Proyectos.Kernel.Shell
import Proyectos.Proof.Ending
import Proyectos.Proof.Orion.Send
import Proyectos.Proof.Toggle.Mode

/-!
# Scripts of `cat` and `echo`

Of any script of commands run one after another on a device just loaded: when it
ends, and what it prints.

On `orion`, `luffy`, `madre` and `chaleco` each command finds the device with no end
of file pending and leaves it so (`Serves.Ready`). `cat` then prints the message once,
if stream mode is off, and never ends, if it is on; what `echo` does to the mode, and
whether it ends, is the driver's (`Echoes`). On `pokemon` the end of file is the
session's own, and `cat` always ends.
-/

namespace SO.Proof

open Spec (Mode.Flags Mode.Act Mode.Reply)
open Driver (Commands writeAll readAll shell)

/-! ## Sessions one after another -/

section

variable {σ : Type} {d : Driver σ} {k : Nat} {s : Sys σ}

/-- A session begun when no session from it on has been used. -/
theorem opn_next (hd : d.Opens) (h : ∀ j ∈ s.used, j < k) {r : Sys σ × Event}
    (hr : d.step s (.opn k) = r) : k ∈ r.1.opens ∧ r.1.used = insert k s.used ∧ r.1.pos k = 0 := by
  have hk : k ∉ s.used := fun hk => Nat.lt_irrefl k (h k hk)
  rw [Driver.step_opn hd hk] at hr
  subst hr
  exact ⟨Finset.mem_insert_self .., rfl, Function.update_self ..⟩

/-- Its end. -/
theorem close_next {u : Finset Nat} (hk : k ∈ s.opens) (hs : s.used = insert k u)
    (h : ∀ j ∈ u, j < k) : ∀ j ∈ (d.step s (.close k)).1.used, j < k + 1 := by
  rw [Driver.step_close hk]
  intro j hj
  rcases Finset.mem_insert.mp (hs ▸ hj) with rfl | hj
  · exact Nat.lt_succ_self j
  · exact Nat.lt_succ_of_lt (h j hj)

end

namespace Serves

variable {σ : Type} {d : Driver σ} (S : Serves d)

/-- Session `k` is open, and the flags are `f`. -/
structure In (u : Finset Nat) (k : Nat) (f : Mode.Flags) (s : Sys σ) : Prop where
  opened : k ∈ s.opens
  used : s.used = u
  inv : S.inv s.dev
  flags : S.flagsOf s = f

/-- No session from `k` on has been used, the mode is `m` and no end of file is pending. -/
structure Ready (k : Nat) (m : Bool) (s : Sys σ) : Prop where
  used : ∀ j ∈ s.used, j < k
  inv : S.inv s.dev
  flags : S.flagsOf s = ⟨m, false⟩

variable {S} {u : Finset Nat} {k len : Nat} {f : Mode.Flags} {m : Bool} {s : Sys σ}

theorem Ready.boot : S.Ready 0 false d.boot := ⟨nofun, S.keeps.init, S.init⟩

theorem Ready.opn (h : S.Ready k m s) :
    S.In (insert k s.used) k ⟨m, false⟩ (d.step s (.opn k)).1 ∧
      (d.step s (.opn k)).1.pos k = 0 := by
  obtain ⟨ho, hu, hp⟩ := opn_next S.opens h.used rfl
  exact ⟨⟨ho, hu, S.keeps.step h.inv _, (S.flags_step h.inv (.opn k)).trans h.flags⟩, hp⟩

theorem In.close (h : S.In (insert k u) k ⟨m, false⟩ s) (hu : ∀ j ∈ u, j < k) :
    S.Ready (k + 1) m (d.step s (.close k)).1 := by
  have hf := S.flags_step h.inv (.close k)
  exact ⟨close_next h.opened h.used hu, S.keeps.step h.inv _, hf.trans h.flags⟩

/-- A write through the session. -/
theorem In.write (h : S.In u k f s) (buf : UserSrc) :
    S.In u k (Spec.Mode.step S.keep f (S.writeAct buf)).1 (d.step s (.write k none buf)).1 := by
  have hf := S.flags_step h.inv (.write k none buf)
  have hi := S.keeps.step h.inv (.write k none buf)
  rw [h.flags, act, if_pos h.opened] at hf
  rw [Driver.step_write h.opened rfl] at hf hi ⊢
  exact ⟨h.opened, h.used, hi, hf⟩

/-! ## `cat` -/

/-- One of its reads. -/
theorem In.read (h : S.In u k f s) {r : Sys σ × Event} (hr : d.step s (.read k none {} len) = r) :
    S.In u k (Spec.Mode.step S.keep f (.read false)).1 r.1 ∧
      Answers S.msg (S.size len) r.2.ret r.2.out.user (Spec.Mode.step S.keep f (.read false)).2 := by
  have ha := S.read s.dev {} len (s.offset k none) (S.kernel h.inv)
  rw [show S.flags s.dev.vars = f from h.flags, decide_eq_false (by simp)] at ha
  have hi := S.keeps.step h.inv (.read k none {} len)
  rw [Driver.step_read h.opened rfl] at hi hr
  subst hr
  exact ⟨⟨h.opened, h.used, hi, ha.1⟩, ha.2⟩

/-- With stream mode off, the message is read and then the end of the file. -/
theorem In.readAll_off (h : S.In u k ⟨false, false⟩ s) (hl : 0 < S.size len) :
    ∃ s', (∀ fuel, readAll d len k (fuel + 2) s = some (S.msg.take (S.size len), s')) ∧
      S.In u k ⟨false, false⟩ s' := by
  generalize hr : d.step s (.read k none {} len) = r
  obtain ⟨h₁, hret, huser⟩ := h.read hr
  generalize hr₂ : d.step r.1 (.read k none {} len) = r₂
  obtain ⟨h₂, hret₂, -⟩ := h₁.read hr₂
  have hp : ¬ r.2.ret ≤ 0 := by rw [hret]; omega
  refine ⟨r₂.1, fun fuel => ?_, h₂⟩
  simp only [readAll, hr, hr₂, if_neg hp, hret₂, le_refl, if_true, Option.map_some, List.append_nil]
  rw [hret, Int.toNat_natCast, huser, List.take_take, Nat.min_self]

/-- In stream mode it never ends. -/
theorem In.readAll_on (h : S.In u k ⟨true, false⟩ s) (hl : 0 < S.size len) (fuel : Nat) :
    readAll d len k fuel s = none := by
  induction fuel generalizing s with
  | zero => rfl
  | succ fuel ih =>
    generalize hr : d.step s (.read k none {} len) = r
    obtain ⟨h₁, hret, -⟩ := h.read hr
    have hp : ¬ r.2.ret ≤ 0 := by rw [hret]; omega
    simp only [readAll, hr, if_neg hp, ih h₁, Option.map_none]

end Serves

/-! ## Scripts -/

/-- What `echo` does on a driver: which lines it ends on, and the mode they leave. -/
structure Echoes {σ : Type} {d : Driver σ} (S : Serves d) where
  Fits : List UInt8 → Prop
  mode : List UInt8 → Bool → Bool
  ends : ∀ {u k m s p}, p ≠ [] → S.In u k ⟨m, false⟩ s → s.pos k = 0 → Fits p →
    ∃ w n, (∀ fuel ≥ n, writeAll d k (fun _ => []) fuel 0 s p = some w) ∧
      S.In u k ⟨mode p m, false⟩ w.sys
  stuck : ∀ {u k m s p}, p ≠ [] → S.In u k ⟨m, false⟩ s → s.pos k = 0 → ¬ Fits p →
    ∀ fuel, writeAll d k (fun _ => []) fuel 0 s p = none

namespace Echoes

variable {σ : Type} {d : Driver σ} {S : Serves d} (E : Echoes S)

/-- `cat` ends with stream mode off, and then prints the message. -/
def commands (len : Nat) (hl : 0 < S.size len) : Commands d len Bool where
  Ready := S.Ready
  Readable m := m = false
  printed := S.msg.take (S.size len)
  Fits := E.Fits
  mode := E.mode
  cat_ends {k m s} h hm := by
    subst hm
    obtain ⟨s', hs', hin⟩ := h.opn.1.readAll_off hl
    refine ⟨2, _, fun fuel hf => ?_, hin.close h.used⟩
    obtain ⟨f, rfl⟩ : ∃ f, fuel = f + 2 := ⟨fuel - 2, by omega⟩
    rw [Driver.cat, hs', Option.map_some]
  cat_stuck {k m s} h hm fuel := by
    obtain rfl : m = true := Bool.not_eq_false m ▸ hm
    rw [Driver.cat, h.opn.1.readAll_on hl, Option.map_none]
  echo_ends {k m s text} h ht := by
    obtain ⟨w, n, hw, hin⟩ := E.ends (Cmd.line_ne_nil text) h.opn.1 h.opn.2 ht
    exact ⟨n, _, fun fuel hf => by rw [Driver.echo, hw fuel hf, Option.map_some], hin.close h.used⟩
  echo_stuck {k m s text} h ht fuel := by
    rw [Driver.echo, E.stuck (Cmd.line_ne_nil text) h.opn.1 h.opn.2 ht, Option.map_none]

end Echoes

/-- What every write of a session keeps, `writeAll` keeps. -/
theorem writeAll_inv {σ : Type} {d : Driver σ} {I : Sys σ → Prop} {k : Nat}
    (hI : ∀ s buf, I s → I (d.step s (.write k none buf)).1) {fuel i : Nat} {s : Sys σ}
    {p : List UInt8} {w : Driver.Written σ} (hs : I s)
    (hw : writeAll d k (fun _ => []) fuel i s p = some w) : I w.sys := by
  induction fuel generalizing i s p w with
  | zero =>
    cases p with
    | nil => cases hw; exact hs
    | cons b l => cases hw
  | succ fuel ih =>
    cases p with
    | nil => cases hw; exact hs
    | cons b l =>
      have hr : I (d.step (Run.after d.step s []) (.write k none ⟨(b :: l).take MAX_RW_COUNT, 0, []⟩)).1 :=
        hI s _ hs
      simp only [writeAll] at hw
      split at hw
      · cases hw
        exact hr
      · obtain ⟨w', hw', rfl⟩ := Option.map_eq_some_iff.mp hw
        have h := ih hr hw'
        exact h

/-! ## `orion` -/

namespace Orion

open SO.Impl.Orion
open SO.Spec.Mode (asks)

/-- The mode a line leaves: the one the first byte of its last chunk that asks for one
asks for. -/
def lineMode (p : List UInt8) (m : Bool) : Bool :=
  (((heads p).filterMap asks).getLast?.or (asks (p.getD 0 0))).elim m (· ≠ 0)

theorem eof_writeAct {f : Mode.Flags} (hf : f.eof = false) (buf : UserSrc) :
    (Spec.Mode.step true f (writeAct buf)).1.eof = false := by
  unfold writeAct byteAct
  split
  · exact hf
  · split
    · rfl
    · split <;> exact hf

/-- Any line ends, and sets the mode its chunks ask for. -/
def echoes : Echoes serves where
  Fits _ := True
  mode := lineMode
  ends {u k m s p} hp h _ _ := by
    have ho : Nat → Driver.Aside k [] := fun _ _ hc => nomatch hc
    obtain ⟨w, hw, -, -, hm⟩ := send_writes ho hp 0 h.opened
    refine ⟨w, p.length, hw, ?_⟩
    have hI : ∃ m', serves.In u k ⟨m', false⟩ w.sys := by
      refine writeAll_inv (I := fun s' => ∃ m', serves.In u k ⟨m', false⟩ s') ?_ ⟨m, h⟩ (hw _ le_rfl)
      rintro s' buf ⟨m', hs'⟩
      have hr := hs'.write buf
      have he : (Spec.Mode.step serves.keep ⟨m', false⟩ (serves.writeAct buf)).1.eof = false :=
        eof_writeAct rfl buf
      generalize (Spec.Mode.step serves.keep ⟨m', false⟩ (serves.writeAct buf)).1 = f at hr he
      obtain ⟨m'', e⟩ := f
      obtain rfl : e = false := he
      exact ⟨m'', hr⟩
    obtain ⟨m', hin⟩ := hI
    have hm' : decide (w.sys.dev.vars.stream ≠ 0) = m' := congrArg Mode.Flags.stream hin.flags
    have hs : decide (s.dev.vars.stream ≠ 0) = m := congrArg Mode.Flags.stream h.flags
    have hl : lineMode p m = m' := by
      rw [← hm', ← hs, hm, lineMode]
      cases ((heads p).filterMap asks).getLast? with
      | some v => rfl
      | none => cases asks (p.getD 0 0) <;> rfl
    rw [hl]
    exact hin
  stuck _ _ _ hf := absurd trivial hf

/-- Whether stream mode is on after a script. -/
def modeAfter (cs : List Cmd) : Bool := Cmd.modeAfter lineMode false cs

end Orion

/-! ## `luffy`, `madre` and `chaleco` -/

namespace Toggle

open SO.Impl.Toggle

variable (x : Texts)

/-- A line ends just if it fits the array, and toggles the mode. -/
def echoes : Echoes (serves x) where
  Fits p := p.length ≤ BUFFER_SIZE
  mode _ m := !m
  ends {u k m s p} hp h h0 hf := by
    have hw : (serves x).In u k ⟨!m, false⟩ _ := h.write ⟨p.take MAX_RW_COUNT, 0, []⟩
    refine ⟨⟨[p], none, _⟩, 1, fun fuel hfuel => ?_, hw⟩
    obtain ⟨f, rfl⟩ : ∃ f, fuel = f + 1 := ⟨fuel - 1, by omega⟩
    exact Driver.writeAll_whole (driver_opens x) (appends x) h.opened h0 hp hf f
  stuck hp h h0 hf := Driver.writeAll_none (driver_opens x) (appends x) h.opened h0 hp hf

/-- The number of `echo`s in a script. -/
def echoed (cs : List Cmd) : Nat := cs.countP fun c => c ≠ .cat

theorem modeAfter_eq (m : Bool) (cs : List Cmd) :
    Cmd.modeAfter (echoes x).mode m cs = (m ^^ decide (Odd (echoed cs))) := by
  induction cs generalizing m with
  | nil => simp [Cmd.modeAfter, echoed]
  | cons c cs ih =>
    cases c with
    | cat =>
      have he : echoed (.cat :: cs) = echoed cs := List.countP_cons_of_neg (by simp)
      rw [he]
      exact ih m
    | echo text =>
      have he : echoed (.echo text :: cs) = echoed cs + 1 := List.countP_cons_of_pos (by simp)
      rw [he]
      refine (ih !m).trans ?_
      by_cases ho : Odd (echoed cs) <;> simp [ho, Nat.odd_add_one]

end Toggle

/-! ## `pokemon` -/

namespace Pokemon

open SO.Impl.Pokemon

/-- Session `k` is open, at the offset `p`. -/
structure In (u : Finset Nat) (k : Nat) (p : Int) (s : Sys Vars) : Prop where
  opened : k ∈ s.opens
  used : s.used = u
  holds : Holds s.dev
  pos : s.pos k = p

/-- No session from `k` on has been used. -/
structure Ready (k : Nat) (s : Sys Vars) : Prop where
  used : ∀ j ∈ s.used, j < k
  holds : Holds s.dev

variable {u : Finset Nat} {k : Nat} {s : Sys Vars}

theorem Ready.opn (h : Ready k s) : In (insert k s.used) k 0 (driver.step s (.opn k)).1 := by
  obtain ⟨ho, hu, hp⟩ := opn_next driver_opens h.used rfl
  exact ⟨ho, hu, keeps_holds.step h.holds _, hp⟩

theorem In.close {p : Int} (h : In (insert k u) k p s) (hu : ∀ j ∈ u, j < k) :
    Ready (k + 1) (driver.step s (.close k)).1 :=
  ⟨close_next h.opened h.used hu, keeps_holds.step h.holds _⟩

/-- The message is read and then, at its end, the end of the file. -/
theorem In.readAll (h : In u k 0 s) (len : Nat) : ∃ s',
    (∀ fuel, readAll driver len k (fuel + 2) s = some (message, s')) ∧ In u k 0 s' := by
  have used {s : Sys Vars} (hk : k ∈ s.opens) :
      (driver.step s (.read k none {} len)).1.used = s.used := by rw [Driver.step_read hk rfl]
  have hu₁ := used h.opened
  have hv₁ := keeps_holds.step h.holds (.read k none {} len)
  generalize hr : driver.step s (.read k none {} len) = r at hu₁ hv₁
  obtain ⟨hg, ho₁, hp₁⟩ :=
    read_message h.holds h.opened h.pos.ge (by rw [h.pos]; decide) rfl len hr
  rw [h.pos, zero_add] at hp₁
  have hu₂ := used ho₁
  have hv₂ := keeps_holds.step hv₁ (.read k none {} len)
  generalize hr₂ : driver.step r.1 (.read k none {} len) = r₂ at hu₂ hv₂
  obtain ⟨hg₂, ho₂, hp₂⟩ := read_eof hv₁ ho₁ hp₁.ge {} len hr₂
  obtain ⟨hret, huser⟩ := Prod.mk.inj hg
  obtain ⟨hret₂, -⟩ := Prod.mk.inj hg₂
  refine ⟨r₂.1, fun fuel => ?_, ⟨ho₂, hu₂.trans (hu₁.trans h.used), hv₂, hp₂⟩⟩
  have hn : ¬ r.2.ret ≤ 0 := by rw [hret]; decide
  simp only [Driver.readAll, hr, hr₂, if_neg hn, hret₂, le_refl, if_true, Option.map_some,
    List.append_nil]
  rw [hret, huser, Int.toNat_natCast, List.take_length]

/-- A write through the session. -/
theorem In.write {p : Int} (h : In u k p s) (buf : UserSrc) :
    ∃ p', In u k p' (driver.step s (.write k none buf)).1 := by
  have hv := keeps_holds.step h.holds (.write k none buf)
  rw [Driver.step_write h.opened rfl] at hv ⊢
  exact ⟨_, h.opened, h.used, hv, rfl⟩

/-- `cat` always ends, and prints the message; a line ends just if it fits the array. -/
def commands (len : Nat) : Commands driver len Unit where
  Ready k _ s := Ready k s
  Readable _ := True
  printed := message
  Fits p := p.length ≤ BUFFER_SIZE
  mode _ m := m
  cat_ends {k m s} h _ := by
    obtain ⟨s', hs', hin⟩ := h.opn.readAll len
    refine ⟨2, _, fun fuel hf => ?_, hin.close h.used⟩
    obtain ⟨f, rfl⟩ : ∃ f, fuel = f + 2 := ⟨fuel - 2, by omega⟩
    rw [Driver.cat, hs', Option.map_some]
  cat_stuck _ hm := absurd trivial hm
  echo_ends {k m s text} h ht := by
    have hin := h.opn
    obtain ⟨p, hw⟩ := hin.write ⟨(Cmd.line text).take MAX_RW_COUNT, 0, []⟩
    refine ⟨1, _, fun fuel hf => ?_, hw.close h.used⟩
    obtain ⟨f, rfl⟩ : ∃ f, fuel = f + 1 := ⟨fuel - 1, by omega⟩
    rw [Driver.echo, Driver.writeAll_whole driver_opens appends hin.opened hin.pos
      (Cmd.line_ne_nil text) ht f, Option.map_some]
  echo_stuck {k m s text} h ht fuel := by
    have hin := h.opn
    rw [Driver.echo, Driver.writeAll_none driver_opens appends hin.opened hin.pos
      (Cmd.line_ne_nil text) ht, Option.map_none]

/-- A script on `pokemon`, with a `cat` whose buffer the message fits, ends just if each line
it writes fits the array, and every `cat` prints the message: no line keeps a `cat` from it. -/
theorem pokemon_scripts_iff (len : Nat) (_hl : message.length ≤ len) (cs : List Cmd) :
    ((∃ fuel t, shell driver len fuel 0 driver.boot cs = some t) ↔
        ∀ text, .echo text ∈ cs → text.length < BUFFER_SIZE) ∧
      ∀ fuel t, shell driver len fuel 0 driver.boot cs = some t →
        t.1 = List.replicate (cs.count .cat) message := by
  have hboot : (commands len).Ready 0 () driver.boot := ⟨nofun, keeps_holds.init⟩
  obtain ⟨hends, hprint⟩ := Commands.script_iff hboot cs
  refine ⟨hends.trans ?_, hprint⟩
  rw [Commands.fine_iff]
  refine (and_iff_left fun _ _ _ => trivial).trans (forall₂_congr fun text _ => ?_)
  show (Cmd.line text).length ≤ BUFFER_SIZE ↔ _
  rw [Cmd.line, List.length_append, List.length_singleton, Nat.succ_le_iff]

/-- `echo 1` and `cat`, which the other drivers do not end on. -/
theorem pokemon_scripts_on : ∃ fuel t, shell driver 131072 fuel 0 driver.boot
    [.echo ['1'.toUInt8], .cat] = some t :=
  (pokemon_scripts_iff 131072 (by decide) _).1.mpr fun text h => by
    obtain rfl : text = ['1'.toUInt8] := by simpa using h
    decide

end Pokemon

end SO.Proof
