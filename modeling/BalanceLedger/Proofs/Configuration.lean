/-
# `Proofs.Configuration` — settings say what the environment says

Settings are read variable by variable, and the first that is at fault ends the reading.
So there are two things to be said of every environment: which variable is reported,
which is `FirstFault`, and where each setting comes from if none is, which is `Follows`.
`settings_follow_environment` says that one or the other is so, for every environment.

A setting stays at its default if its variable says nothing.  What that means is a
parameter here, because there are two readings of it.  To the reader a variable also
says nothing if it holds bytes that are no text (`Unreadable`): then the default
replaces what has been set, and nobody is told.  Where there are no such bytes, a
default is taken only for a variable that is not set (`Unset`), and the theorem has this
as its second half.  `illegibleBatchSize` is an environment in which the two differ.

What a variable may hold is said by a grammar, `Numeral`, and not by the reader;
`parse?_eq_some_iff` is where they meet.  `Setting.Fault` lists what can be wrong with
each variable, and the order of the settings is that of their reading,
`ofEnvironment_map`.

The rest of the program relies on the ranges of the settings, and `Sound` says that
nothing overflows which is worked out from them.
-/
import BalanceLedger.Proofs.Effect
import BalanceLedger.Proofs.Numerals
import BalanceLedger.Settings

namespace BalanceLedger

/-! ## Variables -/

def Variable.Unset (v : Option Variable) : Prop :=
  v = none

/-- The variable holds no text. -/
def Variable.Unreadable (v : Option Variable) : Prop :=
  v = none ∨ v = some .bytes

namespace Environment

variable {env : Environment} {name text : String}

theorem text?_eq_some_iff : env.text? name = some text ↔ env.lookup name = some (.text text) := by
  unfold text?
  cases env.lookup name with
  | none => simp
  | some v => cases v <;> simp

theorem text?_eq_none_iff : env.text? name = none ↔ Variable.Unreadable (env.lookup name) := by
  unfold text? Variable.Unreadable
  cases env.lookup name with
  | none => simp
  | some v => cases v <;> simp

end Environment

namespace Settings

/-! ## Numerals -/

/-- Decimal digits, at least one, and the number that they stand for. -/
def Digits (cs : List Char) (n : Nat) : Prop :=
  cs ≠ [] ∧ AllDigits cs ∧ n = Nat.ofDigitChars 10 cs 0

/-- A numeral, with a sign in front of it or without, and the number that it stands for.  A minus
sign is for numbers of a type that has negative ones. -/
inductive Numeral (negatives : Prop) : List Char → Int → Prop
  | plain {cs : List Char} {n : Nat} (h : Digits cs n) : Numeral negatives cs n
  | plus {cs : List Char} {n : Nat} (h : Digits cs n) : Numeral negatives ('+' :: cs) n
  | minus {cs : List Char} {n : Nat} (h : Digits cs n) (hnegatives : negatives) :
      Numeral negatives ('-' :: cs) (-n)

theorem Digits.isDigit {c : Char} {cs : List Char} {n : Nat} (h : Digits (c :: cs) n) :
    c.isDigit = true :=
  h.2.1 c List.mem_cons_self

theorem digits?_eq_some_iff {cs : List Char} {n : Nat} : digits? cs = some n ↔ Digits cs n := by
  have hvalue : cs.foldl (fun n c => n * 10 + (c.toNat - 48)) 0 = Nat.ofDigitChars 10 cs 0 := by
    simp only [Nat.ofDigitChars_eq_foldl, Nat.mul_comm 10]
    rfl
  rw [digits?, hvalue, Option.ite_none_left_eq_some, Option.some.injEq]
  rw [Digits, AllDigits, eq_comm (a := n), ← and_assoc]
  simp

theorem signed?_eq_some_iff {negatives : Bool} {cs : List Char} {n : Int} :
    signed? negatives cs = some n ↔ Numeral (negatives = true) cs n := by
  have hread {cs : List Char} {n : Int} (f : Nat → Int) :
      (digits? cs).map f = some n ↔ ∃ k, Digits cs k ∧ f k = n := by
    simp only [Option.map_eq_some_iff, digits?_eq_some_iff]
  unfold signed?
  split
  · rename_i cs
    rw [hread]
    constructor
    · rintro ⟨k, hk, rfl⟩
      exact .plus hk
    · intro h
      cases h with
      | plain h => exact absurd h.isDigit (by decide)
      | plus h => exact ⟨_, h, rfl⟩
  · rename_i cs
    have hminus : (Option.map (fun n => -n) do return ((← digits? cs : Nat) : Int)) =
        Option.map (fun k : Nat => -(k : Int)) (digits? cs) := by
      cases digits? cs <;> rfl
    rw [Option.ite_none_right_eq_some, hminus, hread]
    constructor
    · rintro ⟨hnegatives, k, hk, rfl⟩
      exact .minus hk hnegatives
    · intro h
      cases h with
      | plain h => exact absurd h.isDigit (by decide)
      | minus h hnegatives => exact ⟨hnegatives, _, h, rfl⟩
  · rename_i hplus hminus
    rw [hread]
    constructor
    · rintro ⟨k, hk, rfl⟩
      exact .plain hk
    · intro h
      cases h with
      | plain h => exact ⟨_, h, rfl⟩
      | plus h => exact absurd rfl (hplus _)
      | minus h _ => exact absurd rfl (hminus _)

namespace Number

variable {d : Number} {env : Environment} {s : String} {n : Int}

/-- The text is a `Numeral`, white space around it apart, for a number of the type of the setting.
-/
def Denotes (d : Number) (s : String) (n : Int) : Prop :=
  Numeral (d.least < 0) (Text.trim s).toList n ∧ d.least ≤ n ∧ n ≤ d.greatest

theorem parse?_eq_some_iff : d.parse? s = some n ↔ d.Denotes s n := by
  simp [parse?, Denotes, Option.filter_eq_some_iff, signed?_eq_some_iff]

end Number

/-! ## What is at fault -/

def numbers : List (Number × (Settings → Nat)) :=
  [(unsigned32 "DATABASE_MAX_CONNECTIONS" 10 1 1000, databaseMaxConnections),
    (unsigned64 "OUTBOX_POLL_INTERVAL_SECS" 10 1 3600, outboxPollSeconds),
    (unsigned64 "OUTBOX_BATCH_SIZE" 50 1 10000, outboxBatchSize),
    (signed32 "OUTBOX_MAX_RETRIES" 3 1 100, outboxMaxRetries),
    (unsigned64 "OUTBOX_CLAIM_LEASE_SECS" 300 1 86400, outboxLeaseSeconds),
    (unsigned64 "OUTBOX_STARTUP_DELAY_SECS" 5 0 3600, outboxStartupSeconds),
    (unsigned64 "OUTBOX_RETENTION_DAYS" 7 1 3650, outboxRetentionDays),
    (unsigned32 "LEDGER_MAX_CONCURRENCY_RETRIES" 5 1 100, ledgerMaxAttempts)]

inductive Setting where
  | databaseUrl
  | environment
  | logFormat
  | number (d : Number)

/-- The variable of a setting. -/
def Setting.name : Setting → String
  | databaseUrl => "DATABASE_URL"
  | environment => "ENVIRONMENT"
  | logFormat => "LOG_FORMAT"
  | number d => d.name

def order : List Setting :=
  [.databaseUrl, .environment, .logFormat] ++ numbers.map fun p => .number p.1

section

variable (unset : Option Variable → Prop)

/-- What is wrong with what the variable of a setting holds. -/
inductive Setting.Fault : Setting → Option Variable → SettingsError → Prop
  | missing {v : Option Variable} (h : Variable.Unreadable v) :
      Fault .databaseUrl v (.missing "DATABASE_URL")
  | bytes {setting : Setting} (hsetting : setting ≠ .databaseUrl) (h : ¬ unset (some .bytes)) :
      Fault setting (some .bytes) (.invalid setting.name)
  | format {s : String} (htext : s ≠ "text") (hjson : s ≠ "json") :
      Fault .logFormat (some (.text s)) (.invalid "LOG_FORMAT")
  | numeral {d : Number} {s : String} (h : ∀ n, ¬ d.Denotes s n) :
      Fault (.number d) (some (.text s)) (.invalid d.name)
  | range {d : Number} {s : String} {n : Int} (h : d.Denotes s n)
      (hout : ¬ ((d.first : Int) ≤ n ∧ n ≤ d.last)) :
      Fault (.number d) (some (.text s)) (.outOfRange d.name)

/-- What is wrong with the first variable at fault, in the `order` in which settings are read. -/
def FirstFault (env : Environment) (e : SettingsError) : Prop :=
  ∃ before setting after, order = before ++ setting :: after ∧
    setting.Fault unset (env.lookup setting.name) e ∧
    ∀ earlier ∈ before, ∀ e', ¬ earlier.Fault unset (env.lookup earlier.name) e'

/-- Every setting is what its variable says, or the default where that says nothing. -/
structure Follows (env : Environment) (s : Settings) : Prop where
  databaseUrl : env.lookup "DATABASE_URL" = some (.text s.databaseUrl)
  environment : env.lookup "ENVIRONMENT" = some (.text s.environment) ∨
    unset (env.lookup "ENVIRONMENT") ∧ s.environment = "development"
  logFormat : env.lookup "LOG_FORMAT" = some (.text s.logFormat.name) ∨
    unset (env.lookup "LOG_FORMAT") ∧ s.logFormat = .text
  number : ∀ p ∈ numbers,
    (∃ text, env.lookup p.1.name = some (.text text) ∧ p.1.Denotes text (p.2 s) ∧
      p.1.first ≤ p.2 s ∧ p.2 s ≤ p.1.last) ∨
    unset (env.lookup p.1.name) ∧ p.2 s = p.1.default

end

/-! ## Reading -/

open Variable (Unset Unreadable)

variable {env : Environment} {e : SettingsError}

theorem not_fault_bytes {setting : Setting} (hsetting : setting ≠ .databaseUrl) :
    ¬ setting.Fault Unreadable (some .bytes) e := by
  intro h
  cases h with
  | missing => exact hsetting rfl
  | bytes _ h => exact h (.inr rfl)

theorem not_fault_unreadable {setting : Setting} {v : Option Variable}
    (hsetting : setting ≠ .databaseUrl) (h : Unreadable v) : ¬ setting.Fault Unreadable v e := by
  rcases h with rfl | rfl
  · intro h
    cases h
    exact hsetting rfl
  · exact not_fault_bytes hsetting

namespace Number

variable {d : Number} {n : Nat}

/-- A number is read if it is in range, and the default is taken where the variable says nothing. -/
theorem read_ok (h : d.read env = .ok n) :
    (∃ text, env.lookup d.name = some (.text text) ∧ d.Denotes text n ∧
      d.first ≤ n ∧ n ≤ d.last) ∨ Unreadable (env.lookup d.name) ∧ n = d.default := by
  unfold read at h
  split at h
  · rename_i hnone
    exact .inr ⟨Environment.text?_eq_none_iff.mp hnone, (Except.ok.inj h).symm⟩
  · rename_i text htext
    split at h
    · exact absurd h (by simp)
    · rename_i k hk
      split at h
      · rename_i hrange
        obtain rfl := Except.ok.inj h
        have hnat : ((k.toNat : Nat) : Int) = k := Int.toNat_of_nonneg (by omega)
        refine .inl ⟨text, Environment.text?_eq_some_iff.mp htext, ?_, by omega, by omega⟩
        rw [hnat]
        exact parse?_eq_some_iff.mp hk
      · exact absurd h (by simp)

theorem read_error_iff :
    d.read env = .error e ↔ (Setting.number d).Fault Unreadable (env.lookup d.name) e := by
  unfold read
  split
  · rename_i hnone
    have hsilent := Environment.text?_eq_none_iff.mp hnone
    exact ⟨fun h => absurd h (by simp), fun h =>
      absurd h (not_fault_unreadable (by simp) hsilent)⟩
  · rename_i text htext
    rw [Environment.text?_eq_some_iff.mp htext]
    split
    · rename_i hnone
      have hno : ∀ n, ¬ d.Denotes text n := fun n hn => by
        rw [parse?_eq_some_iff.mpr hn] at hnone
        exact absurd hnone (by simp)
      constructor
      · intro h
        obtain rfl := Except.error.inj h
        exact .numeral hno
      · intro h
        cases h with
        | numeral => rfl
        | range h => exact absurd h (hno _)
    · rename_i k hk
      have hdenotes := parse?_eq_some_iff.mp hk
      split
      · rename_i hrange
        refine ⟨fun h => absurd h (by simp), fun h => ?_⟩
        cases h with
        | numeral h => exact absurd hdenotes (h k)
        | range h hout =>
            obtain rfl := Option.some.inj ((parse?_eq_some_iff.mpr h).symm.trans hk)
            exact absurd hrange hout
      · rename_i hout
        constructor
        · intro h
          obtain rfl := Except.error.inj h
          exact .range hdenotes hout
        · intro h
          cases h with
          | numeral h => exact absurd hdenotes (h k)
          | range => rfl

end Number

theorem readLogFormat_ok {f : LogFormat} (h : readLogFormat env = .ok f) :
    env.lookup "LOG_FORMAT" = some (.text f.name) ∨
      Unreadable (env.lookup "LOG_FORMAT") ∧ f = .text := by
  unfold readLogFormat at h
  split at h
  · rename_i hnone
    exact .inr ⟨Environment.text?_eq_none_iff.mp hnone, (Except.ok.inj h).symm⟩
  · rename_i htext
    obtain rfl := Except.ok.inj h
    exact .inl (Environment.text?_eq_some_iff.mp htext)
  · rename_i htext
    obtain rfl := Except.ok.inj h
    exact .inl (Environment.text?_eq_some_iff.mp htext)
  · exact absurd h (by simp)

theorem readLogFormat_error_iff : readLogFormat env = .error e ↔
    Setting.logFormat.Fault Unreadable (env.lookup "LOG_FORMAT") e := by
  unfold readLogFormat
  split
  · rename_i hnone
    have hsilent := Environment.text?_eq_none_iff.mp hnone
    exact ⟨fun h => absurd h (by simp), fun h =>
      absurd h (not_fault_unreadable (by simp) hsilent)⟩
  · rename_i htext
    rw [Environment.text?_eq_some_iff.mp htext]
    refine ⟨fun h => absurd h (by simp), fun h => ?_⟩
    cases h with
    | format htext _ => exact absurd rfl htext
  · rename_i hjson
    rw [Environment.text?_eq_some_iff.mp hjson]
    refine ⟨fun h => absurd h (by simp), fun h => ?_⟩
    cases h with
    | format _ hjson => exact absurd rfl hjson
  · rename_i text htext hjson hread
    rw [Environment.text?_eq_some_iff.mp hread]
    constructor
    · intro h
      obtain rfl := Except.error.inj h
      exact .format (fun h => htext (h ▸ rfl)) fun h => hjson (h ▸ rfl)
    · intro h
      cases h with
      | format => rfl

theorem fault_databaseUrl_iff {v : Option Variable} : Setting.databaseUrl.Fault Unreadable v e ↔
    Unreadable v ∧ e = .missing "DATABASE_URL" := by
  constructor
  · intro h
    cases h with
    | missing h => exact ⟨h, rfl⟩
    | bytes hne => exact absurd rfl hne
  · rintro ⟨h, rfl⟩
    exact .missing h

theorem not_fault_environment {v : Option Variable} :
    ¬ Setting.environment.Fault Unreadable v e := by
  intro h
  cases h with
  | bytes _ h => exact h (.inr rfl)

/-! ## In order -/

/-- Read a setting for nothing but its fault. -/
def Setting.check (env : Environment) : Setting → Except SettingsError Unit
  | .databaseUrl =>
    match env.text? "DATABASE_URL" with
    | none => .error (.missing "DATABASE_URL")
    | some _ => .ok ()
  | .environment => .ok ()
  | .logFormat => (fun _ => ()) <$> readLogFormat env
  | .number d => (fun _ => ()) <$> d.read env

theorem map_eq_error_iff {ε α β : Type} {x : Except ε α} {f : α → β} {e : ε} :
    f <$> x = .error e ↔ x = .error e := by
  cases x <;> simp

theorem check_error_iff {setting : Setting} : setting.check env = .error e ↔
    setting.Fault Unreadable (env.lookup setting.name) e := by
  cases setting with
  | databaseUrl =>
      refine Iff.trans ?_ fault_databaseUrl_iff.symm
      rw [Setting.name, ← Environment.text?_eq_none_iff]
      unfold Setting.check
      cases env.text? "DATABASE_URL" <;> simp [eq_comm]
  | environment => exact ⟨fun h => absurd h (by simp [Setting.check]), fun h =>
      absurd h not_fault_environment⟩
  | logFormat => exact map_eq_error_iff.trans readLogFormat_error_iff
  | number d => exact map_eq_error_iff.trans Number.read_error_iff

theorem ofEnvironment_map (env : Environment) :
    (fun _ => ()) <$> ofEnvironment env = order.forM (Setting.check env) := by
  simp only [order, numbers, List.map_cons, List.map_nil, List.cons_append, List.nil_append,
    List.forM, Setting.check]
  unfold ofEnvironment
  cases env.text? "DATABASE_URL" with
  | none => rfl
  | some url =>
      simp only [map_bind, bind_map_left, bind_pure_comp, Functor.map_map]
      rfl

theorem forM_error {α ε : Type} {f : α → Except ε Unit} {l : List α} {e : ε}
    (h : l.forM f = .error e) : ∃ before a after, l = before ++ a :: after ∧ f a = .error e ∧
      ∀ b ∈ before, f b = .ok () := by
  induction l with
  | nil => exact absurd h (by simp [List.forM, pure, Except.pure])
  | cons a l ih =>
      rw [List.forM] at h
      cases ha : f a with
      | error e' =>
          rw [ha] at h
          obtain rfl := Except.error.inj h
          exact ⟨[], a, l, rfl, ha, by simp⟩
      | ok u =>
          rw [ha] at h
          obtain ⟨before, b, after, rfl, hb, hbefore⟩ := ih h
          exact ⟨a :: before, b, after, rfl, hb, List.forall_mem_cons.mpr ⟨ha, hbefore⟩⟩

theorem firstFault_of_error (h : ofEnvironment env = .error e) : FirstFault Unreadable env e := by
  have hchecks : order.forM (Setting.check env) = .error e := by
    rw [← ofEnvironment_map, map_eq_error_iff]
    exact h
  obtain ⟨before, setting, after, horder, hfault, hbefore⟩ := forM_error hchecks
  refine ⟨before, setting, after, horder, check_error_iff.mp hfault, fun earlier hmem e' h => ?_⟩
  exact absurd ((hbefore earlier hmem).symm.trans (check_error_iff.mpr h)) (by simp)

theorem follows_of_ok {s : Settings} (h : ofEnvironment env = .ok s) :
    Follows Unreadable env s := by
  unfold ofEnvironment at h
  cases hurl : env.text? "DATABASE_URL" with
  | none =>
      rw [hurl] at h
      exact absurd h (by simp [throw, throwThe, MonadExceptOf.throw])
  | some url =>
      rw [hurl] at h
      obtain ⟨format, hformat, h⟩ := exists_of_bind_ok h
      obtain ⟨connections, hconnections, h⟩ := exists_of_bind_ok h
      obtain ⟨poll, hpoll, h⟩ := exists_of_bind_ok h
      obtain ⟨batch, hbatch, h⟩ := exists_of_bind_ok h
      obtain ⟨retries, hretries, h⟩ := exists_of_bind_ok h
      obtain ⟨lease, hlease, h⟩ := exists_of_bind_ok h
      obtain ⟨startup, hstartup, h⟩ := exists_of_bind_ok h
      obtain ⟨retention, hretention, h⟩ := exists_of_bind_ok h
      obtain ⟨attempts, hattempts, h⟩ := exists_of_bind_ok h
      obtain rfl := Except.ok.inj h
      refine ⟨Environment.text?_eq_some_iff.mp hurl, ?_, readLogFormat_ok hformat, ?_⟩
      · cases hname : env.text? "ENVIRONMENT" with
        | none => exact .inr ⟨Environment.text?_eq_none_iff.mp hname, rfl⟩
        | some name => exact .inl (Environment.text?_eq_some_iff.mp hname)
      · simp only [numbers, List.forall_mem_cons]
        exact ⟨Number.read_ok hconnections, Number.read_ok hpoll, Number.read_ok hbatch,
          Number.read_ok hretries, Number.read_ok hlease, Number.read_ok hstartup,
          Number.read_ok hretention, Number.read_ok hattempts, by simp⟩

/-! ## What the parts of the program make of it -/

/-- Every `default` is in range. -/
theorem default_in_range : ∀ p ∈ numbers, p.1.first ≤ p.1.default ∧ p.1.default ≤ p.1.last := by
  decide

theorem Follows.in_range {unset : Option Variable → Prop} {s : Settings}
    (h : Follows unset env s) : ∀ p ∈ numbers, p.1.first ≤ p.2 s ∧ p.2 s ≤ p.1.last := by
  intro p hp
  rcases h.number p hp with ⟨_, _, _, hfirst, hlast⟩ | ⟨-, hdefault⟩
  · exact ⟨hfirst, hlast⟩
  · rw [hdefault]
    exact default_in_range p hp

/-- Nothing overflows that is worked out from the settings. -/
structure Sound (s : Settings) : Prop where
  attempts : 1 ≤ s.retryPolicy.maxAttempts ∧ s.retryPolicy.attempts = s.ledgerMaxAttempts
  retries : s.processor.maxRetries.toInt = s.outboxMaxRetries
  /-- The number of seconds is worked out as a word of 64 bits. -/
  retention : s.outboxRetentionDays * 24 * 3600 ≤ Word.maxNat64
  seconds : s.processor.claimLease.seconds = s.outboxLeaseSeconds ∧
    s.processor.pollInterval.seconds = s.outboxPollSeconds ∧
    s.processor.startupDelay.seconds = s.outboxStartupSeconds ∧
    s.maintenance.retention.seconds = s.outboxRetentionDays * 24 * 3600
  /-- Even nanoseconds can be counted by signed words of 64 bits. -/
  nanos : ∀ length ∈ [s.processor.claimLease, s.processor.pollInterval, s.processor.startupDelay,
    s.maintenance.retention], (length.nanos : Int) ≤ Word.maxInt64

theorem Follows.sound {unset : Option Variable → Prop} {s : Settings} (h : Follows unset env s) :
    Sound s := by
  have hrange := h.in_range
  simp only [numbers, List.forall_mem_cons, unsigned32, unsigned64, signed32] at hrange
  obtain ⟨-, hpoll, -, hretries, hlease, hstartup, hretention, hattempts, -⟩ := hrange
  have hseconds (n : Nat) : (Time.Span.ofSeconds n).seconds = n :=
    Nat.mul_div_cancel n (by decide)
  refine ⟨⟨Nat.le_max_left .., ?attempts⟩, ?retries, ?retention,
    ⟨hseconds _, hseconds _, hseconds _, hseconds _⟩, ?nanos⟩
  case attempts =>
    show max 1 (max 1 s.ledgerMaxAttempts) = s.ledgerMaxAttempts
    omega
  case retries =>
    show (Int32.ofNat s.outboxMaxRetries).toInt = s.outboxMaxRetries
    exact Int32.toInt_ofNat_of_lt (by omega)
  case retention =>
    unfold Word.maxNat64
    omega
  case nanos =>
    simp only [List.forall_mem_cons, processor, maintenance, Time.Span.ofSeconds, Word.maxInt64]
    refine ⟨?_, ?_, ?_, ?_, by simp⟩ <;> omega

/-! ## Every environment -/

/-- Settings are accepted that `Follows` allows, or the `FirstFault` is reported. -/
inductive Configured (unset : Option Variable → Prop) (env : Environment) :
    Except SettingsError Settings → Prop
  | accepted {s : Settings} (h : Follows unset env s) (hsound : Sound s) :
      Configured unset env (.ok s)
  | refused {e : SettingsError} (h : FirstFault unset env e) : Configured unset env (.error e)

theorem Setting.Fault.change {unset unset' : Option Variable → Prop} {setting : Setting}
    {v : Option Variable} (hv : v ≠ some .bytes) (h : setting.Fault unset v e) :
    setting.Fault unset' v e := by
  cases h with
  | missing h => exact .missing h
  | bytes => exact absurd rfl hv
  | format htext hjson => exact .format htext hjson
  | numeral hnone => exact .numeral hnone
  | range hn hout => exact .range hn hout

section

variable (hbytes : ∀ setting ∈ order, env.lookup setting.name ≠ some .bytes)
include hbytes

theorem FirstFault.strict (h : FirstFault Unreadable env e) : FirstFault Unset env e := by
  obtain ⟨before, setting, after, horder, hfault, hbefore⟩ := h
  refine ⟨before, setting, after, horder, ?_, fun earlier hmem e' hfault' => ?_⟩
  · exact hfault.change (hbytes setting (by simp [horder]))
  · exact hbefore earlier hmem e' (hfault'.change (hbytes earlier (by simp [horder, hmem])))

theorem Follows.strict {s : Settings} (h : Follows Unreadable env s) : Follows Unset env s := by
  have hunset (setting : Setting) (hmem : setting ∈ order)
      (hsilent : Unreadable (env.lookup setting.name)) : Unset (env.lookup setting.name) :=
    hsilent.resolve_right (hbytes setting hmem)
  refine ⟨h.databaseUrl, ?_, ?_, fun p hp => ?_⟩
  · exact h.environment.imp_right (.imp_left (hunset .environment (by simp [order])))
  · exact h.logFormat.imp_right (.imp_left (hunset .logFormat (by simp [order])))
  · refine (h.number p hp).imp_right (.imp_left (hunset (.number p.1) ?_))
    exact List.mem_append_right _ (List.mem_map.mpr ⟨p, hp, rfl⟩)

end

/-- In every environment, either the first variable at fault is reported (`FirstFault`), or every
setting `Follows` what its variable says, and the default if that says nothing. Where no variable
holds bytes that are no text, a variable says nothing only if it is not set. -/
theorem settings_follow_environment (env : Environment) :
    Configured Unreadable env (ofEnvironment env) ∧
      ((∀ setting ∈ order, env.lookup setting.name ≠ some .bytes) →
        Configured Unset env (ofEnvironment env)) := by
  cases h : ofEnvironment env with
  | error e =>
      have hfault := firstFault_of_error h
      exact ⟨.refused hfault, fun hbytes => .refused (hfault.strict hbytes)⟩
  | ok s =>
      have hfollows := follows_of_ok h
      exact ⟨.accepted hfollows hfollows.sound,
        fun hbytes => .accepted (hfollows.strict hbytes) hfollows.sound⟩

def illegibleBatchSize : Environment :=
  [("DATABASE_URL", .text "postgres://x"), ("OUTBOX_BATCH_SIZE", .bytes)]

/-- What has been set there is replaced by the default, and nothing is reported. -/
theorem batch_size_replaced_illegibleBatchSize :
    illegibleBatchSize.lookup "OUTBOX_BATCH_SIZE" = some .bytes ∧
      (ofEnvironment illegibleBatchSize).map outboxBatchSize = .ok 50 ∧
      ¬ Configured Unset illegibleBatchSize (ofEnvironment illegibleBatchSize) := by
  have hbytes : illegibleBatchSize.lookup "OUTBOX_BATCH_SIZE" = some .bytes := rfl
  obtain ⟨s, hs, hbatch⟩ : ∃ s, ofEnvironment illegibleBatchSize = .ok s ∧
      s.outboxBatchSize = 50 := ⟨_, rfl, rfl⟩
  rw [hs]
  refine ⟨hbytes, congrArg _ hbatch, fun h => ?_⟩
  cases h with
  | accepted h _ =>
      have hnumber := h.number (unsigned64 "OUTBOX_BATCH_SIZE" 50 1 10000, outboxBatchSize)
        (by simp [numbers])
      rcases hnumber with ⟨_, htext, -⟩ | ⟨hunset, -⟩
      · exact absurd (hbytes.symm.trans htext) (by simp)
      · exact absurd (hbytes.symm.trans hunset) (by simp)

end Settings

end BalanceLedger
