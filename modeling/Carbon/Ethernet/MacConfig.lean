import Carbon.Library.BitFields
import Mathlib.Tactic.SplitIfs

namespace Carbon

namespace MacConfig

open BitFields

-- The fields of the device header that the configuration covers, and ARP, which
-- the mask of MACCR covers without a field.
def maccrArp : BitVec 32 := 0x1#32 <<< 31
def maccrSarc : BitVec 32 := 0x7#32 <<< 28
def maccrIpc : BitVec 32 := 0x1#32 <<< 27
def maccrIpg : BitVec 32 := 0x7#32 <<< 24
def maccrGpslce : BitVec 32 := 0x1#32 <<< 23
def maccrS2kp : BitVec 32 := 0x1#32 <<< 22
def maccrCst : BitVec 32 := 0x1#32 <<< 21
def maccrAcs : BitVec 32 := 0x1#32 <<< 20
def maccrWd : BitVec 32 := 0x1#32 <<< 19
def maccrJd : BitVec 32 := 0x1#32 <<< 17
def maccrJe : BitVec 32 := 0x1#32 <<< 16
def maccrFes : BitVec 32 := 0x1#32 <<< 14
def maccrDm : BitVec 32 := 0x1#32 <<< 13
def maccrLm : BitVec 32 := 0x1#32 <<< 12
def maccrEcrsfd : BitVec 32 := 0x1#32 <<< 11
def maccrDo : BitVec 32 := 0x1#32 <<< 10
def maccrDcrs : BitVec 32 := 0x1#32 <<< 9
def maccrDr : BitVec 32 := 0x1#32 <<< 8
def maccrBl : BitVec 32 := 0x3#32 <<< 5
def maccrDc : BitVec 32 := 0x1#32 <<< 4
def maccrPrelen : BitVec 32 := 0x3#32 <<< 2

def macecrEipg : BitVec 32 := 0x1F#32 <<< 25
def macecrEipgen : BitVec 32 := 0x1#32 <<< 24
def macecrUsp : BitVec 32 := 0x1#32 <<< 18
def macecrSpen : BitVec 32 := 0x1#32 <<< 17
def macecrDcrcc : BitVec 32 := 0x1#32 <<< 16
def macecrGpsl : BitVec 32 := 0x3FFF#32 <<< 0

def macwtrPwe : BitVec 32 := 0x1#32 <<< 8
def macwtrWto : BitVec 32 := 0xF#32 <<< 0

def mactfcrPt : BitVec 32 := 0xFFFF#32 <<< 16
def mactfcrDzpq : BitVec 32 := 0x1#32 <<< 7
def mactfcrPlt : BitVec 32 := 0x7#32 <<< 4
def mactfcrTfe : BitVec 32 := 0x1#32 <<< 1

def macrfcrUp : BitVec 32 := 0x1#32 <<< 1
def macrfcrRfe : BitVec 32 := 0x1#32 <<< 0

def mtltqomrTtc : BitVec 32 := 0x7#32 <<< 4
def mtltqomrTsf : BitVec 32 := 0x1#32 <<< 1

def mtlrqomrDistcpef : BitVec 32 := 0x1#32 <<< 6
def mtlrqomrRsf : BitVec 32 := 0x1#32 <<< 5
def mtlrqomrFep : BitVec 32 := 0x1#32 <<< 4
def mtlrqomrFup : BitVec 32 := 0x1#32 <<< 3
def mtlrqomrRtc : BitVec 32 := 0x3#32 <<< 0

def maccrMask : BitVec 32 := 0xFFFB7F7C#32
def macecrMask : BitVec 32 := 0x3F077FFF#32
def macwtrMask : BitVec 32 := 0x0000010F#32
def mactfcrMask : BitVec 32 := 0xFFFF00F2#32
def macrfcrMask : BitVec 32 := 0x00000003#32
def mtltqomrMask : BitVec 32 := 0x00000072#32
def mtlrqomrMask : BitVec 32 := 0x0000007B#32

def speed10M : BitVec 32 := 0
def speed100M : BitVec 32 := maccrFes
def halfduplexMode : BitVec 32 := 0
def fullduplexMode : BitVec 32 := maccrDm

inductive FunctionalState
  | disable
  | enable
  deriving DecidableEq

-- The value of the enumeration, and the bit of a field of inverted sense.
def FunctionalState.bits : FunctionalState → BitVec 32
  | .disable => 0
  | .enable => 1

def FunctionalState.disabled (s : FunctionalState) : BitVec 32 := if s = .disable then 1 else 0

-- The two conditional expressions a field is decoded with.
def whenSet (field : BitVec 32) : FunctionalState := if field > 0 then .enable else .disable
def whenClear (field : BitVec 32) : FunctionalState := if field = 0 then .enable else .disable

-- The registers of heth->Instance that hold the configuration.
structure Registers where
  maccr : BitVec 32
  macecr : BitVec 32
  macwtr : BitVec 32
  mactfcr : BitVec 32
  macrfcr : BitVec 32
  mtltqomr : BitVec 32
  mtlrqomr : BitVec 32

-- ETH_MACConfigTypeDef.
structure MacConf where
  sourceAddrControl : BitVec 32
  checksumOffload : FunctionalState
  interPacketGapVal : BitVec 32
  giantPacketSizeLimitControl : FunctionalState
  support2KPacket : FunctionalState
  crcStripTypePacket : FunctionalState
  automaticPadCRCStrip : FunctionalState
  watchdog : FunctionalState
  jabber : FunctionalState
  jumboPacket : FunctionalState
  speed : BitVec 32
  duplexMode : BitVec 32
  loopbackMode : FunctionalState
  carrierSenseBeforeTransmit : FunctionalState
  receiveOwn : FunctionalState
  carrierSenseDuringTransmit : FunctionalState
  retryTransmission : FunctionalState
  backOffLimit : BitVec 32
  deferralCheck : FunctionalState
  preambleLength : BitVec 32
  unicastSlowProtocolPacketDetect : FunctionalState
  slowProtocolDetect : FunctionalState
  crcCheckingRxPackets : FunctionalState
  giantPacketSizeLimit : BitVec 32
  extendedInterPacketGap : FunctionalState
  extendedInterPacketGapVal : BitVec 32
  programmableWatchdog : FunctionalState
  watchdogTimeout : BitVec 32
  pauseTime : BitVec 32
  zeroQuantaPause : FunctionalState
  pauseLowThreshold : BitVec 32
  transmitFlowControl : FunctionalState
  unicastPausePacketDetect : FunctionalState
  receiveFlowControl : FunctionalState
  transmitQueueMode : BitVec 32
  receiveQueueMode : BitVec 32
  dropTCPIPChecksumErrorPacket : FunctionalState
  forwardRxErrorPacket : FunctionalState
  forwardRxUndersizedGoodPacket : FunctionalState

-- macregval, as it is composed for each register.
section Values

variable (macconf : MacConf)

def maccrValue : BitVec 32 :=
  macconf.interPacketGapVal ||| macconf.sourceAddrControl |||
    macconf.checksumOffload.bits <<< 27 |||
    macconf.giantPacketSizeLimitControl.bits <<< 23 |||
    macconf.support2KPacket.bits <<< 22 |||
    macconf.crcStripTypePacket.bits <<< 21 |||
    macconf.automaticPadCRCStrip.bits <<< 20 |||
    macconf.watchdog.disabled <<< 19 |||
    macconf.jabber.disabled <<< 17 |||
    macconf.jumboPacket.bits <<< 16 ||| macconf.speed |||
    macconf.duplexMode ||| macconf.loopbackMode.bits <<< 12 |||
    macconf.carrierSenseBeforeTransmit.bits <<< 11 |||
    macconf.receiveOwn.disabled <<< 10 |||
    macconf.carrierSenseDuringTransmit.bits <<< 9 |||
    macconf.retryTransmission.disabled <<< 8 |||
    macconf.backOffLimit ||| macconf.deferralCheck.bits <<< 4 |||
    macconf.preambleLength

def macecrValue : BitVec 32 :=
  macconf.extendedInterPacketGapVal <<< 25 |||
    macconf.extendedInterPacketGap.bits <<< 24 |||
    macconf.unicastSlowProtocolPacketDetect.bits <<< 18 |||
    macconf.slowProtocolDetect.bits <<< 17 |||
    macconf.crcCheckingRxPackets.disabled <<< 16 |||
    macconf.giantPacketSizeLimit

def macwtrValue : BitVec 32 := macconf.programmableWatchdog.bits <<< 8 ||| macconf.watchdogTimeout

def mactfcrValue : BitVec 32 :=
  macconf.transmitFlowControl.bits <<< 1 ||| macconf.pauseLowThreshold |||
    macconf.zeroQuantaPause.disabled <<< 7 ||| macconf.pauseTime <<< 16

def macrfcrValue : BitVec 32 :=
  macconf.receiveFlowControl.bits ||| macconf.unicastPausePacketDetect.bits <<< 1

def mtltqomrValue : BitVec 32 := macconf.transmitQueueMode

def mtlrqomrValue : BitVec 32 :=
  macconf.receiveQueueMode ||| macconf.dropTCPIPChecksumErrorPacket.disabled <<< 6 |||
    macconf.forwardRxErrorPacket.bits <<< 4 ||| macconf.forwardRxUndersizedGoodPacket.bits <<< 3

end Values

def setMacConfig (regs : Registers) (macconf : MacConf) : Registers where
  maccr := modifyReg regs.maccr maccrMask (maccrValue macconf)
  macecr := modifyReg regs.macecr macecrMask (macecrValue macconf)
  macwtr := modifyReg regs.macwtr macwtrMask (macwtrValue macconf)
  mactfcr := modifyReg regs.mactfcr mactfcrMask (mactfcrValue macconf)
  macrfcr := modifyReg regs.macrfcr macrfcrMask (macrfcrValue macconf)
  mtltqomr := modifyReg regs.mtltqomr mtltqomrMask (mtltqomrValue macconf)
  mtlrqomr := modifyReg regs.mtlrqomr mtlrqomrMask (mtlrqomrValue macconf)

def getMacConfig (regs : Registers) : MacConf where
  preambleLength := readBit regs.maccr maccrPrelen
  deferralCheck := whenSet (readBit regs.maccr maccrDc >>> 4)
  backOffLimit := readBit regs.maccr maccrBl
  retryTransmission := whenClear (readBit regs.maccr maccrDr >>> 8)
  carrierSenseDuringTransmit := whenSet (readBit regs.maccr maccrDcrs >>> 9)
  receiveOwn := whenClear (readBit regs.maccr maccrDo >>> 10)
  carrierSenseBeforeTransmit := whenSet (readBit regs.maccr maccrEcrsfd >>> 11)
  loopbackMode := whenSet (readBit regs.maccr maccrLm >>> 12)
  duplexMode := readBit regs.maccr maccrDm
  speed := readBit regs.maccr maccrFes
  jumboPacket := whenSet (readBit regs.maccr maccrJe >>> 16)
  jabber := whenClear (readBit regs.maccr maccrJd >>> 17)
  watchdog := whenClear (readBit regs.maccr maccrWd >>> 19)
  automaticPadCRCStrip := whenSet (readBit regs.maccr maccrAcs >>> 20)
  crcStripTypePacket := whenSet (readBit regs.maccr maccrCst >>> 21)
  support2KPacket := whenSet (readBit regs.maccr maccrS2kp >>> 22)
  giantPacketSizeLimitControl := whenSet (readBit regs.maccr maccrGpslce >>> 23)
  interPacketGapVal := readBit regs.maccr maccrIpg
  checksumOffload := whenSet (readBit regs.maccr maccrIpc >>> 27)
  sourceAddrControl := readBit regs.maccr maccrSarc
  giantPacketSizeLimit := readBit regs.macecr macecrGpsl
  crcCheckingRxPackets := whenClear (readBit regs.macecr macecrDcrcc >>> 16)
  slowProtocolDetect := whenSet (readBit regs.macecr macecrSpen >>> 17)
  unicastSlowProtocolPacketDetect := whenSet (readBit regs.macecr macecrUsp >>> 18)
  extendedInterPacketGap := whenSet (readBit regs.macecr macecrEipgen >>> 24)
  extendedInterPacketGapVal := readBit regs.macecr macecrEipg >>> 25
  programmableWatchdog := whenSet (readBit regs.macwtr macwtrPwe >>> 8)
  watchdogTimeout := readBit regs.macwtr macwtrWto
  transmitFlowControl := whenSet (readBit regs.mactfcr mactfcrTfe >>> 1)
  zeroQuantaPause := whenClear (readBit regs.mactfcr mactfcrDzpq >>> 7)
  pauseLowThreshold := readBit regs.mactfcr mactfcrPlt
  pauseTime := readBit regs.mactfcr mactfcrPt >>> 16
  receiveFlowControl := whenSet (readBit regs.macrfcr macrfcrRfe)
  unicastPausePacketDetect := whenSet (readBit regs.macrfcr macrfcrUp >>> 1)
  transmitQueueMode := readBit regs.mtltqomr (mtltqomrTtc ||| mtltqomrTsf)
  receiveQueueMode := readBit regs.mtlrqomr (mtlrqomrRtc ||| mtlrqomrRsf)
  forwardRxUndersizedGoodPacket := whenSet (readBit regs.mtlrqomr mtlrqomrFup >>> 3)
  forwardRxErrorPacket := whenSet (readBit regs.mtlrqomr mtlrqomrFep >>> 4)
  dropTCPIPChecksumErrorPacket := whenClear (readBit regs.mtlrqomr mtlrqomrDistcpef >>> 6)

-- What the link thread does to the registers when the link comes up.
def reconfigure (regs : Registers) (speed duplex : BitVec 32) : Registers :=
  setMacConfig regs { getMacConfig regs with duplexMode := duplex, speed := speed }

-- The numbers of a configuration lie in their fields.
structure MacConf.InRange (macconf : MacConf) : Prop where
  sourceAddrControl : Fits macconf.sourceAddrControl maccrSarc
  interPacketGapVal : Fits macconf.interPacketGapVal maccrIpg
  speed : Fits macconf.speed maccrFes
  duplexMode : Fits macconf.duplexMode maccrDm
  backOffLimit : Fits macconf.backOffLimit maccrBl
  preambleLength : Fits macconf.preambleLength maccrPrelen
  giantPacketSizeLimit : Fits macconf.giantPacketSizeLimit macecrGpsl
  extendedInterPacketGapVal : Fits macconf.extendedInterPacketGapVal 0x1F#32
  watchdogTimeout : Fits macconf.watchdogTimeout macwtrWto
  pauseTime : Fits macconf.pauseTime 0xFFFF#32
  pauseLowThreshold : Fits macconf.pauseLowThreshold mactfcrPlt
  transmitQueueMode : Fits macconf.transmitQueueMode (mtltqomrTtc ||| mtltqomrTsf)
  receiveQueueMode : Fits macconf.receiveQueueMode (mtlrqomrRtc ||| mtlrqomrRsf)

-- The bits that a mask covers without a field of the configuration.
structure Registers.Unclaimed (regs : Registers) : Prop where
  arp : regs.maccr.getLsbD 31 = false
  reserved : regs.macecr.getLsbD 14 = false

-- Only the speed and the duplex mode differ, and they are the new ones.
structure Retuned (regs regs' : Registers) (speed duplex : BitVec 32) : Prop where
  maccr : ∀ i, i ≠ 13 → i ≠ 14 → regs'.maccr.getLsbD i = regs.maccr.getLsbD i
  speed : readBit regs'.maccr maccrFes = speed
  duplex : readBit regs'.maccr maccrDm = duplex
  others : regs' = { regs with maccr := regs'.maccr }

variable {regs : Registers} {macconf : MacConf} {speed duplex : BitVec 32}

theorem FunctionalState.bits_fits (s : FunctionalState) : Fits s.bits 1#32 := by
  cases s <;> decide

theorem FunctionalState.disabled_fits (s : FunctionalState) : Fits s.disabled 1#32 := by
  cases s <;> decide

theorem whenSet_bits (s : FunctionalState) : whenSet s.bits = s := by
  cases s <;> decide

theorem whenClear_disabled (s : FunctionalState) : whenClear s.disabled = s := by
  cases s <;> decide

theorem whenSet_shifted (s : FunctionalState) {n : Nat} (hn : 1#32 <<< n >>> n = 1#32) :
    whenSet (s.bits <<< n >>> n) = s := by
  rw [s.bits_fits.shiftLeft_ushiftRight hn, whenSet_bits]

theorem whenClear_shifted (s : FunctionalState) {n : Nat} (hn : 1#32 <<< n >>> n = 1#32) :
    whenClear (s.disabled <<< n >>> n) = s := by
  rw [s.disabled_fits.shiftLeft_ushiftRight hn, whenClear_disabled]

-- A bit that is decoded and encoded again is the one that was read.
theorem bits_whenSet (reg : BitVec 32) (n : Nat) :
    (whenSet (readBit reg (1#32 <<< n) >>> n)).bits <<< n = readBit reg (1#32 <<< n) := by
  have hfits := fits_readBit reg (1#32 <<< n)
  have hbits : ∀ bit : BitVec 32, Fits bit 1#32 → (whenSet bit).bits = bit := by
    intro bit hbit
    rcases fits_one hbit with rfl | rfl <;> decide
  rw [hbits _ (fits_ushiftRight hfits), ushiftRight_shiftLeft hfits]

theorem disabled_whenClear (reg : BitVec 32) (n : Nat) :
    (whenClear (readBit reg (1#32 <<< n) >>> n)).disabled <<< n = readBit reg (1#32 <<< n) := by
  have hfits := fits_readBit reg (1#32 <<< n)
  have hbits : ∀ bit : BitVec 32, Fits bit 1#32 → (whenClear bit).disabled = bit := by
    intro bit hbit
    rcases fits_one hbit with rfl | rfl <;> decide
  rw [hbits _ (fits_ushiftRight hfits), ushiftRight_shiftLeft hfits]

-- The fields of MACCR apart from the speed and the duplex mode.
def maccrKept : BitVec 32 :=
  maccrIpg ||| maccrSarc ||| maccrIpc ||| maccrGpslce ||| maccrS2kp ||| maccrCst ||| maccrAcs ||| maccrWd |||
    maccrJd ||| maccrJe ||| maccrLm ||| maccrEcrsfd ||| maccrDo ||| maccrDcrs ||| maccrDr ||| maccrBl |||
    maccrDc ||| maccrPrelen

theorem maccrValue_get (regs : Registers) (speed duplex : BitVec 32) :
    maccrValue { getMacConfig regs with duplexMode := duplex, speed := speed } =
      readBit regs.maccr maccrKept ||| (speed ||| duplex) := by
  unfold maccrValue getMacConfig maccrKept
  simp only [-BitVec.reduceHShiftLeft, readBit_or, maccrIpc, maccrGpslce, maccrS2kp, maccrCst, maccrAcs, maccrWd,
    maccrJd, maccrJe, maccrLm, maccrEcrsfd, maccrDo, maccrDcrs, maccrDr, maccrDc, bits_whenSet, disabled_whenClear]
  ac_rfl

-- The fields of the other registers.
def macecrKept : BitVec 32 :=
  macecrEipg ||| macecrEipgen ||| macecrUsp ||| macecrSpen ||| macecrDcrcc ||| macecrGpsl

def mactfcrKept : BitVec 32 := mactfcrTfe ||| mactfcrPlt ||| mactfcrDzpq ||| mactfcrPt

def mtlrqomrKept : BitVec 32 :=
  mtlrqomrRtc ||| mtlrqomrRsf ||| mtlrqomrDistcpef ||| mtlrqomrFep ||| mtlrqomrFup

theorem macecrValue_get (regs : Registers) (speed duplex : BitVec 32) :
    macecrValue { getMacConfig regs with duplexMode := duplex, speed := speed } =
      readBit regs.macecr macecrKept := by
  have hgap : readBit regs.macecr macecrEipg >>> 25 <<< 25 = readBit regs.macecr macecrEipg :=
    ushiftRight_shiftLeft (fits_readBit regs.macecr (0x1F#32 <<< 25))
  unfold macecrValue getMacConfig macecrKept
  simp only [-BitVec.reduceHShiftLeft, readBit_or, macecrEipgen, macecrUsp, macecrSpen, macecrDcrcc,
    bits_whenSet, disabled_whenClear, hgap]

theorem macwtrValue_get (regs : Registers) (speed duplex : BitVec 32) :
    macwtrValue { getMacConfig regs with duplexMode := duplex, speed := speed } =
      readBit regs.macwtr (macwtrPwe ||| macwtrWto) := by
  unfold macwtrValue getMacConfig
  simp only [-BitVec.reduceHShiftLeft, readBit_or, macwtrPwe, bits_whenSet]

theorem mactfcrValue_get (regs : Registers) (speed duplex : BitVec 32) :
    mactfcrValue { getMacConfig regs with duplexMode := duplex, speed := speed } =
      readBit regs.mactfcr mactfcrKept := by
  have htime : readBit regs.mactfcr mactfcrPt >>> 16 <<< 16 = readBit regs.mactfcr mactfcrPt :=
    ushiftRight_shiftLeft (fits_readBit regs.mactfcr (0xFFFF#32 <<< 16))
  unfold mactfcrValue getMacConfig mactfcrKept
  simp only [-BitVec.reduceHShiftLeft, readBit_or, mactfcrTfe, mactfcrDzpq, bits_whenSet, disabled_whenClear,
    htime]

theorem macrfcrValue_get (regs : Registers) (speed duplex : BitVec 32) :
    macrfcrValue { getMacConfig regs with duplexMode := duplex, speed := speed } =
      readBit regs.macrfcr (macrfcrRfe ||| macrfcrUp) := by
  have hfirst : (whenSet (readBit regs.macrfcr macrfcrRfe)).bits = readBit regs.macrfcr macrfcrRfe := by
    simpa only [macrfcrRfe, BitVec.ushiftRight_zero, BitVec.shiftLeft_zero] using bits_whenSet regs.macrfcr 0
  unfold macrfcrValue getMacConfig
  simp only [-BitVec.reduceHShiftLeft, readBit_or, macrfcrUp, bits_whenSet, hfirst]

theorem mtltqomrValue_get (regs : Registers) (speed duplex : BitVec 32) :
    mtltqomrValue { getMacConfig regs with duplexMode := duplex, speed := speed } =
      readBit regs.mtltqomr (mtltqomrTtc ||| mtltqomrTsf) := rfl

theorem mtlrqomrValue_get (regs : Registers) (speed duplex : BitVec 32) :
    mtlrqomrValue { getMacConfig regs with duplexMode := duplex, speed := speed } =
      readBit regs.mtlrqomr mtlrqomrKept := by
  unfold mtlrqomrValue getMacConfig mtlrqomrKept
  simp only [-BitVec.reduceHShiftLeft, readBit_or, mtlrqomrDistcpef, mtlrqomrFep, mtlrqomrFup, bits_whenSet,
    disabled_whenClear]

-- Every register but MACCR is written back as it was, whatever the speed and the
-- duplex mode.
theorem reconfigure_eq (h : regs.Unclaimed) (speed duplex : BitVec 32) :
    reconfigure regs speed duplex =
      { regs with maccr := modifyReg regs.maccr (maccrFes ||| maccrDm) (speed ||| duplex) } := by
  have hmaccr : readBit regs.maccr maccrMask = readBit regs.maccr (maccrKept ||| (maccrFes ||| maccrDm)) := by
    have hmask : maccrMask = maccrKept ||| (maccrFes ||| maccrDm) ||| maccrArp := by decide
    rw [hmask]
    exact readBit_or_bit h.arp _
  have hmacecr : readBit regs.macecr macecrMask = readBit regs.macecr macecrKept := by
    have hmask : macecrMask = macecrKept ||| 1#32 <<< 14 := by decide
    rw [hmask]
    exact readBit_or_bit h.reserved _
  have hmacwtr : macwtrMask = macwtrPwe ||| macwtrWto := by decide
  have hmactfcr : mactfcrMask = mactfcrKept := by decide
  have hmacrfcr : macrfcrMask = macrfcrRfe ||| macrfcrUp := by decide
  have hmtltqomr : mtltqomrMask = mtltqomrTtc ||| mtltqomrTsf := by decide
  have hmtlrqomr : mtlrqomrMask = mtlrqomrKept := by decide
  unfold reconfigure setMacConfig
  rw [maccrValue_get, modifyReg_replace hmaccr (by decide) (by decide) (by decide), macecrValue_get,
    modifyReg_readBit hmacecr (by decide), macwtrValue_get, modifyReg_exact hmacwtr, mactfcrValue_get,
    modifyReg_exact hmactfcr, macrfcrValue_get, modifyReg_exact hmacrfcr, mtltqomrValue_get,
    modifyReg_exact hmtltqomr, mtlrqomrValue_get, modifyReg_exact hmtlrqomr]

-- The two new values take their own bits of MACCR and no other.
theorem retuned_reconfigure (h : regs.Unclaimed) (hspeed : Fits speed maccrFes) (hduplex : Fits duplex maccrDm) :
    Retuned regs (reconfigure regs speed duplex) speed duplex := by
  rw [reconfigure_eq h]
  refine ⟨?_, ?_, ?_, rfl⟩
  · intro i h13 h14
    have hbits : maccrFes = BitVec.twoPow 32 14 ∧ maccrDm = BitVec.twoPow 32 13 := by decide
    apply getLsbD_modifyReg_outside (hspeed.or hduplex)
    rw [hbits.1, hbits.2, BitVec.getLsbD_or, BitVec.getLsbD_twoPow, BitVec.getLsbD_twoPow]
    simp [h13.symm, h14.symm]
  · have hother : readBit duplex maccrFes = 0#32 := hduplex.readBit_apart (by decide)
    show readBit (modifyReg regs.maccr (maccrFes ||| maccrDm) (speed ||| duplex)) maccrFes = speed
    rw [readBit_modifyReg (by decide), readBit_union, hspeed, hother, BitVec.or_zero]
  · have hother : readBit speed maccrDm = 0#32 := hspeed.readBit_apart (by decide)
    show readBit (modifyReg regs.maccr (maccrFes ||| maccrDm) (speed ||| duplex)) maccrDm = duplex
    rw [readBit_modifyReg (by decide), readBit_union, hduplex, hother, BitVec.zero_or]

-- No other field of MACCR reaches the bits of the speed and the duplex mode.
theorem getLsbD_reconfigure (regs : Registers) (speed duplex : BitVec 32) {i : Nat} (hi : i = 13 ∨ i = 14) :
    (reconfigure regs speed duplex).maccr.getLsbD i = (speed.getLsbD i || duplex.getLsbD i) := by
  have hbits : i < 32 ∧ maccrMask.getLsbD i = true ∧ maccrKept.getLsbD i = false := by
    rcases hi with rfl | rfl <;> decide
  obtain ⟨hlt, hmask, hkept⟩ := hbits
  unfold reconfigure setMacConfig
  dsimp only
  rw [getLsbD_modifyReg hlt, maccrValue_get, BitVec.getLsbD_or, BitVec.getLsbD_or, getLsbD_readBit, hmask, hkept]
  simp

-- A flag at its place, in either sense.
def flagPart (s : FunctionalState) (n : Nat) : Part 32 := ⟨1#32 <<< n, s.bits <<< n, s.bits_fits.shiftLeft n⟩

def disabledPart (s : FunctionalState) (n : Nat) : Part 32 :=
  ⟨1#32 <<< n, s.disabled <<< n, s.disabled_fits.shiftLeft n⟩

-- The values of a configuration with the fields they are written to.
def macrfcrParts (macconf : MacConf) : List (Part 32) :=
  [⟨macrfcrRfe, macconf.receiveFlowControl.bits, macconf.receiveFlowControl.bits_fits⟩,
    flagPart macconf.unicastPausePacketDetect 1]

section Parts

variable (h : macconf.InRange)

def maccrParts : List (Part 32) :=
  [⟨maccrIpg, macconf.interPacketGapVal, h.interPacketGapVal⟩,
    ⟨maccrSarc, macconf.sourceAddrControl, h.sourceAddrControl⟩,
    flagPart macconf.checksumOffload 27, flagPart macconf.giantPacketSizeLimitControl 23,
    flagPart macconf.support2KPacket 22, flagPart macconf.crcStripTypePacket 21,
    flagPart macconf.automaticPadCRCStrip 20, disabledPart macconf.watchdog 19,
    disabledPart macconf.jabber 17, flagPart macconf.jumboPacket 16, ⟨maccrFes, macconf.speed, h.speed⟩,
    ⟨maccrDm, macconf.duplexMode, h.duplexMode⟩, flagPart macconf.loopbackMode 12,
    flagPart macconf.carrierSenseBeforeTransmit 11, disabledPart macconf.receiveOwn 10,
    flagPart macconf.carrierSenseDuringTransmit 9, disabledPart macconf.retryTransmission 8,
    ⟨maccrBl, macconf.backOffLimit, h.backOffLimit⟩, flagPart macconf.deferralCheck 4,
    ⟨maccrPrelen, macconf.preambleLength, h.preambleLength⟩]

def macecrParts : List (Part 32) :=
  [⟨macecrEipg, macconf.extendedInterPacketGapVal <<< 25, h.extendedInterPacketGapVal.shiftLeft 25⟩,
    flagPart macconf.extendedInterPacketGap 24, flagPart macconf.unicastSlowProtocolPacketDetect 18,
    flagPart macconf.slowProtocolDetect 17, disabledPart macconf.crcCheckingRxPackets 16,
    ⟨macecrGpsl, macconf.giantPacketSizeLimit, h.giantPacketSizeLimit⟩]

def macwtrParts : List (Part 32) :=
  [flagPart macconf.programmableWatchdog 8, ⟨macwtrWto, macconf.watchdogTimeout, h.watchdogTimeout⟩]

def mactfcrParts : List (Part 32) :=
  [flagPart macconf.transmitFlowControl 1, ⟨mactfcrPlt, macconf.pauseLowThreshold, h.pauseLowThreshold⟩,
    disabledPart macconf.zeroQuantaPause 7, ⟨mactfcrPt, macconf.pauseTime <<< 16, h.pauseTime.shiftLeft 16⟩]

def mtltqomrParts : List (Part 32) :=
  [⟨mtltqomrTtc ||| mtltqomrTsf, macconf.transmitQueueMode, h.transmitQueueMode⟩]

def mtlrqomrParts : List (Part 32) :=
  [⟨mtlrqomrRtc ||| mtlrqomrRsf, macconf.receiveQueueMode, h.receiveQueueMode⟩,
    disabledPart macconf.dropTCPIPChecksumErrorPacket 6, flagPart macconf.forwardRxErrorPacket 4,
    flagPart macconf.forwardRxUndersizedGoodPacket 3]

-- A register as it is written, with the fields its value is composed of.
structure Layout where
  mask : BitVec 32
  value : BitVec 32
  parts : List (Part 32)

def layouts : List Layout :=
  [⟨maccrMask, maccrValue macconf, maccrParts h⟩, ⟨macecrMask, macecrValue macconf, macecrParts h⟩,
    ⟨macwtrMask, macwtrValue macconf, macwtrParts h⟩, ⟨mactfcrMask, mactfcrValue macconf, mactfcrParts h⟩,
    ⟨macrfcrMask, macrfcrValue macconf, macrfcrParts macconf⟩,
    ⟨mtltqomrMask, mtltqomrValue macconf, mtltqomrParts h⟩,
    ⟨mtlrqomrMask, mtlrqomrValue macconf, mtlrqomrParts h⟩]

-- The value is the union of its fields, which lie apart in the mask.
structure Layout.Sound (l : Layout) : Prop where
  value : l.value = join (l.parts.map Part.value)
  apart : Apart (l.parts.map Part.mask)
  fits : Fits (join (l.parts.map Part.mask)) l.mask

theorem layouts_sound : ∀ l ∈ layouts h, l.Sound := by
  have hvalue : ∀ l ∈ layouts h, l.value = join (l.parts.map Part.value) := by
    simp only [layouts, List.forall_mem_cons, List.not_mem_nil, maccrValue, macecrValue, macwtrValue,
      mactfcrValue, macrfcrValue, mtltqomrValue, mtlrqomrValue, maccrParts, macecrParts, macwtrParts,
      mactfcrParts, macrfcrParts, mtltqomrParts, mtlrqomrParts, flagPart, disabledPart, join, List.map_cons,
      List.map_nil, List.foldr_cons, List.foldr_nil, BitVec.or_zero, BitVec.or_assoc, false_implies, implies_true,
      and_self]
  have hmasks : ∀ l ∈ layouts h, Apart (l.parts.map Part.mask) ∧ Fits (join (l.parts.map Part.mask)) l.mask := by
    simp only [layouts, List.forall_mem_cons, maccrParts, macecrParts, macwtrParts,
      mactfcrParts, macrfcrParts, mtltqomrParts, mtlrqomrParts, flagPart, disabledPart, List.map_cons, List.map_nil]
    decide
  exact fun l hl => ⟨hvalue l hl, (hmasks l hl).1, (hmasks l hl).2⟩

-- Whatever a register held, every field is read back as it was written.
theorem layouts_read : ∀ l ∈ layouts h, ∀ reg, ∀ p ∈ l.parts,
    readBit (modifyReg reg l.mask l.value) p.mask = p.value := by
  intro l hl reg
  obtain ⟨hvalue, hapart, hfits⟩ := layouts_sound h l hl
  rw [hvalue]
  exact readBit_modifyReg_join hapart hfits reg

end Parts

-- A configuration in range is read back as it was written.
theorem get_set (regs : Registers) (h : macconf.InRange) :
    getMacConfig (setMacConfig regs macconf) = macconf := by
  have hread := layouts_read h
  simp only [layouts, List.forall_mem_cons, maccrParts, macecrParts, macwtrParts, mactfcrParts, macrfcrParts,
    mtltqomrParts, mtlrqomrParts, flagPart, disabledPart] at hread
  obtain ⟨hmaccr, hmacecr, hmacwtr, hmactfcr, hmacrfcr, hmtltqomr, hmtlrqomr, -⟩ := hread
  have hgap : macconf.extendedInterPacketGapVal <<< 25 >>> 25 = macconf.extendedInterPacketGapVal :=
    h.extendedInterPacketGapVal.shiftLeft_ushiftRight (by decide)
  have htime : macconf.pauseTime <<< 16 >>> 16 = macconf.pauseTime :=
    h.pauseTime.shiftLeft_ushiftRight (by decide)
  unfold getMacConfig setMacConfig
  simp (disch := decide) only [-BitVec.reduceHShiftLeft, maccrIpc, maccrGpslce, maccrS2kp, maccrCst, maccrAcs,
    maccrWd, maccrJd, maccrJe, maccrLm, maccrEcrsfd, maccrDo, maccrDcrs, maccrDr, maccrDc, macecrEipgen, macecrUsp,
    macecrSpen, macecrDcrcc, macwtrPwe, mactfcrTfe, mactfcrDzpq, macrfcrUp, mtlrqomrDistcpef, mtlrqomrFep,
    mtlrqomrFup, hmaccr, hmacecr, hmacwtr, hmactfcr, hmacrfcr, hmtltqomr, hmtlrqomr, hgap, htime, whenSet_bits,
    whenSet_shifted, whenClear_shifted]

-- The configuration survives a change of the link, and any configuration in range
-- a write and a read.
theorem mac_config_kept (regs : Registers) (macconf : MacConf) (speed duplex : BitVec 32) :
    (regs.Unclaimed → Fits speed maccrFes → Fits duplex maccrDm →
      Retuned regs (reconfigure regs speed duplex) speed duplex) ∧
    (macconf.InRange → getMacConfig (setMacConfig regs macconf) = macconf) :=
  ⟨retuned_reconfigure, get_set regs⟩

-- Registers with every bit set that is not unclaimed.
def filled : Registers :=
  ⟨0x7FFFFFFF, 0xFFFFBFFF, 0xFFFFFFFF, 0xFFFFFFFF, 0xFFFFFFFF, 0xFFFFFFFF, 0xFFFFFFFF⟩

theorem mac_config_kept_filled :
    Retuned filled { filled with maccr := 0x7FFFBFFF } speed10M fullduplexMode ∧
      getMacConfig (setMacConfig ⟨0, 0, 0, 0, 0, 0, 0⟩ (getMacConfig filled)) = getMacConfig filled :=
  ⟨(mac_config_kept filled (getMacConfig filled) speed10M fullduplexMode).1 ⟨by decide, by decide⟩ (by decide)
    (by decide), (mac_config_kept ⟨0, 0, 0, 0, 0, 0, 0⟩ (getMacConfig filled) 0 0).2
    ⟨by decide, by decide, by decide, by decide, by decide, by decide, by decide, by decide, by decide, by decide,
      by decide, by decide, by decide⟩⟩

end MacConfig

end Carbon
