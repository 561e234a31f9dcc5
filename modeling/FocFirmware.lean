import FocFirmware.BaseRemainder
import FocFirmware.Config
import FocFirmware.EncoderDriver
import FocFirmware.AngleElectrical
import FocFirmware.BaseFilter
import FocFirmware.LoopController
import FocFirmware.SpeedEstimate
import FocFirmware.BaseRuns
import FocFirmware.LoopLimits
import FocFirmware.EncoderFraming
import FocFirmware.TelemetryChannel
import FocFirmware.TelemetryHandshake
import FocFirmware.TelemetryWire
import FocFirmware.BaseCString
import FocFirmware.CommandParser
import FocFirmware.CommandGrammar
import FocFirmware.SineFast
import FocFirmware.FocTransforms
import FocFirmware.SvpwmModulator
import FocFirmware.SvpwmLineVoltage
import FocFirmware.BaseBernstein
import FocFirmware.BaseTrigSeries
import FocFirmware.SineAccuracy
import FocFirmware.PwmOutput
import FocFirmware.ControlStep
import FocFirmware.ControlCalibration
import FocFirmware.FocRoundTrip
import FocFirmware.BaseMidrange
import FocFirmware.BaseRadial
import FocFirmware.SvpwmUnified
import FocFirmware.SvpwmContinuity
import FocFirmware.SvpwmMemory
import FocFirmware.PwmRuns
import FocFirmware.PwmDivision
import FocFirmware.BaseStore
import FocFirmware.CommandStore
import FocFirmware.BaseCNumber
import FocFirmware.CommandValue
import FocFirmware.EncoderTimeout
import FocFirmware.BaseDirection
import FocFirmware.ControlRecalibration
import FocFirmware.BaseAntiWindup
import FocFirmware.BaseLittleEndian
import FocFirmware.LoopPositional
import FocFirmware.TelemetryFrame
import FocFirmware.TelemetryTail
import FocFirmware.BaseCountdown
import FocFirmware.DelayFunctions
import FocFirmware.BaseInterrupts
import FocFirmware.FirmwareSystem
import FocFirmware.BaseThreePhase
import FocFirmware.DelayWorkbench
import FocFirmware.DelaySessions
import FocFirmware.BaseBitField
import FocFirmware.ClockRegisters
import FocFirmware.ClockTree
import FocFirmware.ClockUsart
import FocFirmware.ClockStartup
import FocFirmware.BaseCalls
import FocFirmware.EncoderTrace
import FocFirmware.BaseNesting
import FocFirmware.NvicRegisters
import FocFirmware.FirmwareNesting
import FocFirmware.FirmwareBus
import FocFirmware.FirmwareInterrupts
import FocFirmware.FirmwareTelemetry
import FocFirmware.FirmwareOrientation
import FocFirmware.FirmwareSlew
import FocFirmware.GpioRegisters
import FocFirmware.GpioStartup
