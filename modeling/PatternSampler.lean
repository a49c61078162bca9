import PatternSampler.Distribution.Mass
import PatternSampler.Main
import PatternSampler.Proofs.Language.Completeness
import PatternSampler.Proofs.Composition
import PatternSampler.Proofs.Exceptions.Agreement
import PatternSampler.Proofs.RoundTrip.Draws
import PatternSampler.Proofs.Uniformity
import PatternSampler.Proofs.Runs
import PatternSampler.Proofs.ExitCodes
import PatternSampler.Proofs.Resolution.Order
import PatternSampler.Proofs.Engine
import PatternSampler.Proofs.Lookahead
import PatternSampler.Proofs.Support
import PatternSampler.Proofs.Resolution.Weights
import PatternSampler.Proofs.WeightedClass
import PatternSampler.Proofs.Caret
import PatternSampler.Proofs.Offsets
import PatternSampler.Proofs.Integers
import PatternSampler.Proofs.Alphabets
import PatternSampler.Proofs.RoundTrip.Alphabet
import PatternSampler.Proofs.NumberText.Buffer
import PatternSampler.Proofs.NumberText.Shortest
import PatternSampler.Proofs.WordsTaken
import PatternSampler.Proofs.GroupDepth
import PatternSampler.Proofs.Paths
