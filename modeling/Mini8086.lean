import Mini8086.Main
import Mini8086.Proofs.Runs
import Mini8086.Proofs.SameBytes
import Mini8086.Proofs.Safety
import Mini8086.Proofs.Sessions
import Mini8086.Proofs.Concatenation
import Mini8086.Proofs.Numerals
import Mini8086.Proofs.Literals
import Mini8086.Proofs.RunModes
import Mini8086.Proofs.RelocatedRuns
import Mini8086.Proofs.Footprint
import Mini8086.Proofs.FirstError
import Mini8086.Proofs.CanonicalSource
import Mini8086.Proofs.Respelled
import Mini8086.Proofs.MultiWord
import Mini8086.Proofs.MemoryReads
import Mini8086.Proofs.Retargeting
import Mini8086.Proofs.Comparisons
import Mini8086.Proofs.CountedLoops
import Mini8086.Proofs.MemoryImage
import Mini8086.Proofs.UnsignedBranches
import Mini8086.Proofs.PokeGrammar
import Mini8086.Proofs.ProductsAndQuotients
import Mini8086.Proofs.WrittenNumbers
import Mini8086.Proofs.PrintedListing
import Mini8086.Proofs.UnusedLabels
import Mini8086.Proofs.LineGrammar
import Mini8086.Proofs.SignedHexadecimal
