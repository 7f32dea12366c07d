import MipsAsm.Command.Basic
import MipsAsm.Instr.Listing
import MipsAsm.Main
import MipsAsm.Program.Image
import MipsAsm.Proofs.Closure
import MipsAsm.Proofs.ControlTransfer
import MipsAsm.Proofs.Reassembly
import MipsAsm.Storage.Tree
import MipsAsm.Proofs.Strings
import MipsAsm.Proofs.Resolvability
import MipsAsm.Proofs.Lossless
import MipsAsm.Proofs.Appending
import MipsAsm.Proofs.Relocation
import MipsAsm.Proofs.ExpandedSource
import MipsAsm.Proofs.Location
import MipsAsm.Proofs.Inertness
import MipsAsm.Proofs.Effects
import MipsAsm.Proofs.SingleLine
import MipsAsm.Proofs.StringLines
import MipsAsm.Proofs.LoadImmediate
import MipsAsm.Proofs.Disassembly
import MipsAsm.Proofs.Immediates
import MipsAsm.Proofs.Listings
import MipsAsm.Proofs.Packing
import MipsAsm.Proofs.Registers
import MipsAsm.Proofs.FirstBinding
import MipsAsm.Proofs.Paths
import MipsAsm.Proofs.SymbolFile
