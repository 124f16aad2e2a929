import PsychWard.Clock.NtpClient

/-!
# The uptime

`SYS_GET_UPTIME` answers in milliseconds, but forms them in the 32 bits of the clock register. The
network driver plans the periodic synchronisation on this clock. The answer is right for 4294967
seconds; a synchronisation planned in the last half hour of them waits for an uptime that no answer
can carry.
-/

namespace PsychWard.Clock

namespace TimerDriver

/-- The last uptime in seconds whose milliseconds fit the product. -/
def lastUptimeS : ℕ := 4294967

theorem serve_getUptime (t : TimerDriver) {badge : ℕ} (h : badge ≠ timerIrqBadge) (rtcDr mr1 : ℕ) :
    t.serve rtcDr badge sysGetUptime mr1 = (some [t.getUptime rtcDr], t) := by
  rw [serve, if_neg h, if_neg (by decide), if_pos rfl]

theorem getUptime_eq_mod (t : TimerDriver) {r : ℕ} (hb : t.bootEpochSeconds ≤ r)
    (hr : r < 2 ^ 32) : t.getUptime r = (r - t.bootEpochSeconds) * 1000 % 2 ^ 32 := by
  have hdiff : (r + 2 ^ 32 - t.bootEpochSeconds) % 2 ^ 32 = r - t.bootEpochSeconds := by omega
  rw [getUptime, hdiff]

theorem getUptime_lt (t : TimerDriver) (r : ℕ) : t.getUptime r < 2 ^ 32 :=
  Nat.mod_lt _ (by decide)

theorem getUptime_eq_iff (t : TimerDriver) {r : ℕ} (hb : t.bootEpochSeconds ≤ r)
    (hr : r < 2 ^ 32) : t.getUptime r = (r - t.bootEpochSeconds) * 1000 ↔
      r - t.bootEpochSeconds ≤ lastUptimeS := by
  rw [t.getUptime_eq_mod hb hr, lastUptimeS]
  omega

end TimerDriver

namespace NtpClient

/-- The periodic synchronisation that the client plans at clock reading `s` is due at reading `r`. -/
def ResyncDue (t : TimerDriver) (n : NtpClient) (s r : ℕ) : Prop :=
  (n.scheduleNextNtpResync (t.getUptime s)).ntpNextResyncUptimeMs ≤ t.getUptime r

theorem resyncDue_iff {t : TimerDriver} {n : NtpClient} {s r : ℕ} :
    n.ResyncDue t s r ↔ t.getUptime s + ntpResyncIntervalMs ≤ t.getUptime r := by
  have hs := t.getUptime_lt s
  have hplan : (n.scheduleNextNtpResync (t.getUptime s)).ntpNextResyncUptimeMs =
      t.getUptime s + ntpResyncIntervalMs :=
    Nat.mod_eq_of_lt (by rw [ntpResyncIntervalMs]; omega)
  rw [ResyncDue, hplan]

/-- A plan made in the last half hour before the product overflows is never due. -/
theorem not_resyncDue {t : TimerDriver} (n : NtpClient) {s : ℕ} (r : ℕ)
    (hb : t.bootEpochSeconds ≤ s) (hs : s < 2 ^ 32)
    (hfit : s - t.bootEpochSeconds ≤ TimerDriver.lastUptimeS)
    (hlate : TimerDriver.lastUptimeS < s - t.bootEpochSeconds + 30 * 60) :
    ¬ n.ResyncDue t s r := by
  have hr := t.getUptime_lt r
  rw [resyncDue_iff, (t.getUptime_eq_iff hb hs).mpr hfit, ntpResyncIntervalMs]
  rw [TimerDriver.lastUptimeS] at hlate
  omega

end NtpClient

/-- What the uptime promises its callers at clock reading `r`. -/
structure UptimeRight (t : TimerDriver) (r : ℕ) : Prop where
  exact : ∀ badge mr1, badge ≠ timerIrqBadge →
    (t.serve r badge sysGetUptime mr1).1 = some [(r - t.bootEpochSeconds) * 1000]
  mono : ∀ s, t.bootEpochSeconds ≤ s → s ≤ r → t.getUptime s ≤ t.getUptime r
  due : ∀ (n : NtpClient) s, t.bootEpochSeconds ≤ s → s + 30 * 60 ≤ r → n.ResyncDue t s r

/-- **The uptime is right for 4294967 seconds.** At every reading of the clock register since the
driver's start. -/
theorem uptimeRight_iff (t : TimerDriver) (r : ℕ) (hb : t.bootEpochSeconds ≤ r) (hr : r < 2 ^ 32) :
    UptimeRight t r ↔ r - t.bootEpochSeconds ≤ TimerDriver.lastUptimeS := by
  constructor
  · intro h
    have hans := h.exact 1 0 (by decide)
    rw [t.serve_getUptime (by decide)] at hans
    exact (t.getUptime_eq_iff hb hr).mp (List.head_eq_of_cons_eq (Option.some.inj hans))
  · intro h
    have hup := (t.getUptime_eq_iff hb hr).mpr h
    have hbefore : ∀ s, t.bootEpochSeconds ≤ s → s ≤ r →
        t.getUptime s = (s - t.bootEpochSeconds) * 1000 := by
      intro s hs hsr
      exact (t.getUptime_eq_iff hs (by omega)).mpr (by omega)
    refine ⟨?_, ?_, ?_⟩
    · intro badge mr1 hbadge
      rw [t.serve_getUptime hbadge, hup]
    · intro s hs hsr
      rw [hup, hbefore s hs hsr]
      omega
    · intro n s hs hsr
      rw [NtpClient.resyncDue_iff, hup, hbefore s hs (by omega), ntpResyncIntervalMs]
      omega

/-- Fifty days after the start. -/
theorem uptimeRight_iff_wrapped : UptimeRight (.start 1700000000) 1704320000 ↔
    1704320000 - (TimerDriver.start 1700000000).bootEpochSeconds ≤ TimerDriver.lastUptimeS :=
  uptimeRight_iff (.start 1700000000) 1704320000 (by decide) (by decide)

/-- One second after the last right answer the uptime starts again at 704 ms, and a plan made in the
half hour before is never due. -/
theorem not_uptimeRight_wrapped :
    (TimerDriver.start 0).getUptime 4294968 = 704 ∧
      (∀ n r, ¬ NtpClient.ResyncDue (.start 0) n 4294000 r) ∧
      ¬ ∀ (t : TimerDriver) (r : ℕ), t.bootEpochSeconds ≤ r → r < 2 ^ 32 → UptimeRight t r := by
  refine ⟨by decide, ?_, ?_⟩
  · intro n r
    exact n.not_resyncDue r (by decide) (by decide) (by decide) (by decide)
  · intro h
    have hright := h (.start 0) 4294968 (by decide) (by decide)
    have hans := hright.exact 1 0 (by decide)
    exact absurd hans (by decide)

end PsychWard.Clock
