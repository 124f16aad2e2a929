import PsychWard.Common.Word

/-!
# The timer driver

`timer_driver.cpp`: a server on the timer endpoint in front of the PL031 real-time clock. The clock
register counts whole seconds in 32 bits. The driver keeps the reading it saw at start, for the
uptime, and the offset that the network driver last stored, for the time of day.
-/

namespace PsychWard.Clock

/-- The badge under which the timer interrupt reaches the driver's endpoint. -/
def timerIrqBadge : ℕ := 2

/-- Request numbers of the timer endpoint. -/
def sysGetTime : ℕ := 3
def sysGetUptime : ℕ := 4
def sysSetTimeOffset : ℕ := 5

/-- The variables of the driver's main loop. -/
structure TimerDriver where
  bootEpochSeconds : ℕ
  ntpOffsetSeconds : ℤ
deriving DecidableEq, Repr

namespace TimerDriver

/-- The driver after its start-up code, which reads the clock once. -/
def start (rtcDr : ℕ) : TimerDriver where
  bootEpochSeconds := rtcDr
  ntpOffsetSeconds := 0

/-- The answer to `SYS_GET_TIME`: milliseconds since the Unix epoch, corrected. -/
def getTime (t : TimerDriver) (rtcDr : ℕ) : ℕ :=
  let corrected := wrap64 (rtcDr + t.ntpOffsetSeconds)
  toWord (wrap64 (corrected * 1000))

/-- The answer to `SYS_GET_UPTIME`. Both register values are 32 bits wide, and so is the product. -/
def getUptime (t : TimerDriver) (rtcDr : ℕ) : ℕ :=
  (rtcDr + 2 ^ 32 - t.bootEpochSeconds) % 2 ^ 32 * 1000 % 2 ^ 32

/-- One turn of the main loop: the message registers of the answer, `none` when the message is
taken for the interrupt and gets no answer, and the state after it. -/
def serve (t : TimerDriver) (rtcDr badge sys mr1 : ℕ) : Option (List ℕ) × TimerDriver :=
  if badge = timerIrqBadge then (none, t)
  else if sys = sysGetTime then (some [t.getTime rtcDr], t)
  else if sys = sysGetUptime then (some [t.getUptime rtcDr], t)
  else if sys = sysSetTimeOffset then (some [0], { t with ntpOffsetSeconds := toInt64 mr1 })
  else (some [], t)

/-- The two ways the network driver calls the timer: as PID `badge`, never the interrupt's. -/
theorem serve_getTime (t : TimerDriver) {badge : ℕ} (h : badge ≠ timerIrqBadge) (rtcDr mr1 : ℕ) :
    t.serve rtcDr badge sysGetTime mr1 = (some [t.getTime rtcDr], t) := by
  rw [serve, if_neg h, if_pos rfl]

theorem serve_setTimeOffset (t : TimerDriver) {badge : ℕ} (h : badge ≠ timerIrqBadge)
    (rtcDr : ℕ) (offset : ℤ) :
    t.serve rtcDr badge sysSetTimeOffset (toWord offset)
      = (some [0], { t with ntpOffsetSeconds := wrap64 offset }) := by
  rw [serve, if_neg h, if_neg (by decide), if_neg (by decide), if_pos rfl, toInt64_toWord]

/-- With the corrected clock in the range of the register, the answer is that clock in ms. -/
theorem getTime_eq (t : TimerDriver) {rtcDr : ℕ} {c : ℕ} (hc : (rtcDr : ℤ) + t.ntpOffsetSeconds = c)
    (hlt : c < 2 ^ 33) : t.getTime rtcDr = c * 1000 := by
  have h1 : wrap64 (c : ℤ) = c := wrap64_eq_self (by omega) (by omega)
  have h2 : wrap64 ((c : ℤ) * 1000) = c * 1000 := wrap64_eq_self (by omega) (by omega)
  have h3 : (toWord ((c : ℤ) * 1000) : ℤ) = c * 1000 := toWord_of_nonneg (by omega) (by omega)
  simp only [getTime, hc, h1, h2]
  omega

end TimerDriver

end PsychWard.Clock
