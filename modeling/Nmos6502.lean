import Nmos6502.Instruction.Listing
import Nmos6502.Machine.Request
import Nmos6502.Proofs.Bus.Transfers
import Nmos6502.Proofs.Machine.Stages
import Nmos6502.Proofs.Machine.Reach
import Nmos6502.Proofs.Machine.Stack
import Nmos6502.Proofs.Interrupt.Frame
import Nmos6502.Proofs.Interrupt.Nesting
import Nmos6502.Proofs.Interrupt.History
import Nmos6502.Proofs.Addressing.Location
import Nmos6502.Proofs.Instruction.Accesses
import Nmos6502.Proofs.Instruction.Effects
import Nmos6502.Proofs.Bus.StopRequests
import Nmos6502.Proofs.Machine.Steps
import Nmos6502.Proofs.Machine.Budget
import Nmos6502.Proofs.Machine.Refusal
import Nmos6502.Proofs.Machine.Slices
import Nmos6502.Proofs.Machine.StopHistory
import Nmos6502.Proofs.Bus.History
import Nmos6502.Proofs.Machine.Retuning
import Nmos6502.Proofs.Machine.Tolerance
import Nmos6502.Proofs.Alu.Operation
import Nmos6502.Proofs.Alu.Binary
import Nmos6502.Proofs.Alu.Decimal
import Nmos6502.Proofs.Machine.CarryChain
import Nmos6502.Proofs.Machine.Moments
import Nmos6502.Proofs.Machine.Likeness
import Nmos6502.Proofs.Bus.Veil
import Nmos6502.Proofs.Machine.Dependence
import Nmos6502.Proofs.Machine.Accounting
import Nmos6502.Proofs.Status.Packed
import Nmos6502.Proofs.Machine.StatusBytes
import Nmos6502.Proofs.Interrupt.Masking
import Nmos6502.Proofs.Machine.LiveStatus
import Nmos6502.Proofs.Machine.Restart
import Nmos6502.Proofs.Instruction.DecimalFlag
import Nmos6502.Proofs.Machine.DecimalMode
import Nmos6502.Proofs.Alu.AnyDigits
import Nmos6502.Proofs.Machine.DecimalLaw
import Nmos6502.Proofs.Instruction.Timing
import Nmos6502.Proofs.Machine.Comparison
import Nmos6502.Proofs.Alu.Rotation
import Nmos6502.Proofs.Machine.ShiftChain
import Nmos6502.Proofs.Addressing.EffectiveAddress
import Nmos6502.Proofs.Instruction.ControlFlow
import Nmos6502.Proofs.Machine.StraightLine
import Nmos6502.Proofs.Machine.Calls
import Nmos6502.Proofs.Instruction.Duration
import Nmos6502.Proofs.Machine.StackPage
import Nmos6502.Proofs.Machine.Encodings
import Nmos6502.Proofs.Machine.CountingLoop
import Nmos6502.Proofs.Config.Records
import Nmos6502.Proofs.Config.Reading
import Nmos6502.Proofs.Width.Calculation
import Nmos6502.Proofs.Width.Operations
import Nmos6502.Proofs.Width.Step
import Nmos6502.Proofs.Machine.Builds
